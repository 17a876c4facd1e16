import EncedoChat.Handshake.Agreement

/-!
# A handshake that is fed

`startHandshake` of `eh2/establish.ts`, whose feeds may overlap: a feed goes on at each of its awaits, and anything else
may run before. The secrets of a responder lie in buffers that its feeds share, and a buffer is wiped in place.
-/

namespace EncedoChat.Handshake

/-- With the first root step of the ratchet: `dhStep(rk, ikm)`, the next root key and the chain key. -/
structure Suite extends Primitives where
  dhStep : Bytes → Bytes → Bytes × Bytes

variable {C : Suite}

/-- What `ratchetFrom` makes of a handshake, but for its counters and the hybrid step. -/
structure Ratchet (C : Suite) where
  role : Role
  rk : Bytes
  dhSelf : Option C.Priv
  dhPeerPub : Bytes
  ckSend : Option Bytes
  ckRecv : Option Bytes

/-- `first` is what the first root step gave. -/
def ratchetFrom (role : Role) (ekSelf : Option C.Priv) (ekPeerPub : Bytes) (first : Bytes × Bytes) : Ratchet C where
  role := role
  rk := first.1
  dhSelf := ekSelf
  dhPeerPub := ekPeerPub
  ckSend := if role = .initiator then some first.2 else none
  ckRecv := if role = .initiator then none else some first.2

/-- A session with the frames it comes of, which the code does not keep. -/
structure Session (C : Suite) where
  msg1 : Bytes
  msg2 : Bytes
  ratchet : Ratchet C

/-- A responder's state, whose buffers are shared; the frames it comes of are not kept by the code. -/
structure Held where
  msg1 : Bytes
  msg2 : Bytes
  state : ResponderState
  deriving DecidableEq

/-- `sk.fill(0)` and `firstStepIkm.fill(0)` -/
def Held.wiped (h : Held) : Held :=
  { h with state := { h.state with sk := wipe h.state.sk, firstStepIkm := wipe h.state.firstStepIkm } }

/-- What a feed rejects with. -/
inductive Refusal where
  | handshake (e : HandshakeError)
  /-- `unexpected frame after the handshake completed` -/
  | completed
  deriving DecidableEq

/-- What a feed waits for. -/
inductive Feed (C : Suite) where
  /-- `initiatorComplete`, called at `now`: nothing that it reads changes meanwhile. -/
  | completing (s : InitiatorState C.toPrimitives) (msg2 : Bytes) (now : Time)
  /-- `toSession` of what it returned -/
  | stepping (s : InitiatorState C.toPrimitives) (msg2 msg3 : Bytes) (r : HandshakeResult C.toPrimitives)
  | responding (msg1 : Bytes) (now : Time)
  /-- `macVerify` of `responderComplete`, under the key that was imported -/
  | verifying (j : Nat) (h : Held) (key macI : Bytes)
  /-- `importKey` of the first root step, of what the buffer held -/
  | importing (j : Nat) (h : Held) (ikm : Bytes)
  /-- `deriveBits` of it, with the salt that the other buffer held -/
  | keying (j : Nat) (h : Held) (ikm salt : Bytes)

/-- What a call of `startHandshake` or of a feed draws. -/
structure Fresh (C : Suite) where
  ek : C.Priv
  pq : C.KemKey
  coins : C.Coins

structure Engine (C : Suite) where
  opts : StartOpts C.toPrimitives
  role : Role
  initial : List Bytes
  /-- an initiator's -/
  state : Option (InitiatorState C.toPrimitives)
  /-- the states that `respond` returned, and which of them is the `pending` one -/
  held : List Held
  pending : Option Nat
  /-- What the promise is settled with. -/
  session : Option (Except HandshakeError (Session C))

namespace Engine

def start (role : Role) (o : StartOpts C.toPrimitives) (d : Fresh C) (now : Time) :
    Except HandshakeError (Engine C) :=
  match role with
  | .initiator => do
    let (msg1, s) ← initiate o.ik o.peerIkPub o.tagKey d.ek d.pq now MAX_SKEW_MS
    return ⟨o, .initiator, [msg1], some s, [], none, none⟩
  | .responder => .ok ⟨o, .responder, [], none, [], none, none⟩

/-- `resolve` and `reject`: the first of them settles the promise. -/
def settle (e : Engine C) (r : Except HandshakeError (Session C)) : Engine C := { e with session := e.session.or (some r) }

/-- `pending`, with its place. -/
def waits (e : Engine C) : Option (Nat × Held) := e.pending.bind fun j => e.held[j]?.map fun h => (j, h)

/-- What a buffer holds now. -/
def buffer (e : Engine C) (j : Nat) (h : Held) : ResponderState := (e.held.getD j h).state

def wipe (e : Engine C) (j : Nat) : Engine C := { e with held := e.held.modify j Held.wiped }

/-- `reject(e); throw e` -/
def fail {α : Type} (e : Engine C) (err : HandshakeError) : Engine C × (α ⊕ Except Refusal (Option Bytes)) :=
  (e.settle (.error err), .inr (.error (.handshake err)))

/-- A call of `feed`, up to its first await: it waits, or it has returned. -/
def feed (e : Engine C) (frame : Bytes) (now : Time) : Engine C × (Feed C ⊕ Except Refusal (Option Bytes)) :=
  match e.role with
  | .initiator =>
    match e.state with
    | none => (e, .inr (.error .completed))
    | some s =>
      if frame.head? ≠ some T_MSG2 then (e, .inr (.error (.handshake (.expected "initiator" "msg2" frame.head?))))
      else (e, .inl (.completing s frame now))
  | .responder =>
    match e.waits with
    | none =>
      if frame.head? ≠ some T_MSG1 then e.fail (.expected "responder" "msg1" frame.head?)
      else (e, .inl (.responding frame now))
    | some (j, h) =>
      if frame.head? ≠ some T_MSG3 then e.fail (.expected "responder" "msg3" frame.head?)
      else
        match decodeMsg3 frame with
        | .error err => e.fail (.wire err)
        | .ok macI => (e, .inl (.verifying j h h.state.sk macI))

/-- A feed goes on, up to its next await. A wipe and the settling that it goes with are in one turn: what runs between
them are reactions to settled promises, and a derivation is none. -/
def resume (e : Engine C) (d : Fresh C) : Feed C → Engine C × (Feed C ⊕ Except Refusal (Option Bytes))
  | .completing s msg2 now =>
    match initiatorComplete s msg2 now with
    | .error err => e.fail err
    | .ok (msg3, r) => ({ e with state := none }, .inl (.stepping s msg2 msg3 r))
  | .stepping s msg2 msg3 r =>
    (e.settle (.ok ⟨s.msg1Bytes, msg2, ratchetFrom r.role r.ekSelf r.ekPeerPub (C.dhStep r.sk r.firstStepIkm)⟩),
      .inr (.ok (some msg3)))
  | .responding msg1 now =>
    match respond e.opts.ik e.opts.peerIkPub e.opts.tagKey msg1 d.ek d.coins now MAX_SKEW_MS with
    | .error err => e.fail err
    | .ok (msg2, st) =>
      ({ e with held := e.held ++ [⟨msg1, msg2, st⟩], pending := some e.held.length }, .inr (.ok (some msg2)))
  | .verifying j h key macI =>
    if macVerify C.toPrimitives key LABEL_I h.state.h3 macI = false then (e.wipe j).fail .macI
    else ({ e with pending := none }, .inl (.importing j h (e.buffer j h).firstStepIkm))
  | .importing j h ikm => (e, .inl (.keying j h ikm (e.buffer j h).sk))
  | .keying j h ikm salt =>
    ((e.wipe j).settle (.ok ⟨h.msg1, h.msg2, ratchetFrom .responder none h.state.ekPeerPub (C.dhStep salt ikm)⟩),
      .inr (.ok none))

/-! ## What a promise is settled with -/

/-- The state of an initiator that began. -/
def Asked (o : StartOpts C.toPrimitives) (s : InitiatorState C.toPrimitives) : Prop :=
  ∃ ekI pq now, initiate o.ik o.peerIkPub o.tagKey ekI pq now MAX_SKEW_MS = .ok (s.msg1Bytes, s)

/-- The state of a responder that answered. -/
def Answers (o : StartOpts C.toPrimitives) (h : Held) : Prop :=
  ∃ ekR coins now, respond o.ik o.peerIkPub o.tagKey h.msg1 ekR coins now MAX_SKEW_MS = .ok (h.msg2, h.state)

/-- The session of a handshake that nothing disturbed. -/
inductive Comes (o : StartOpts C.toPrimitives) : Session C → Prop
  | initiator {s : InitiatorState C.toPrimitives} {msg2 msg3 : Bytes} {now : Time} {r : HandshakeResult C.toPrimitives}
      (asked : Asked o s) (completed : initiatorComplete s msg2 now = .ok (msg3, r)) :
      Comes o ⟨s.msg1Bytes, msg2, ratchetFrom r.role r.ekSelf r.ekPeerPub (C.dhStep r.sk r.firstStepIkm)⟩
  | responder {h : Held} (answers : Answers o h) :
      Comes o ⟨h.msg1, h.msg2,
        ratchetFrom .responder none h.state.ekPeerPub (C.dhStep h.state.sk h.state.firstStepIkm)⟩

/-- As long as the promise is open no buffer is wiped. -/
structure Sound (e : Engine C) : Prop where
  state : ∀ s, e.state = some s → Asked e.opts s
  held : e.session = none → ∀ h ∈ e.held, Answers e.opts h
  session : ∀ s, e.session = some (.ok s) → Comes e.opts s

/-- What a feed copied while the promise was open is what was derived. -/
def Fits (e : Engine C) : Feed C → Prop
  | .completing s _ _ => Asked e.opts s
  | .stepping s msg2 msg3 r => Asked e.opts s ∧ ∃ now, initiatorComplete s msg2 now = .ok (msg3, r)
  | .responding _ _ => True
  | .verifying j h _ _ => e.session = none → e.held[j]? = some h
  | .importing j h ikm => e.session = none → e.held[j]? = some h ∧ ikm = h.state.firstStepIkm
  | .keying j h ikm salt => e.session = none → e.held[j]? = some h ∧ ikm = h.state.firstStepIkm ∧ salt = h.state.sk

/-- What other feeds do to an engine, as far as a feed depends on it. -/
structure Grows (e e' : Engine C) : Prop where
  opts : e'.opts = e.opts
  held : e'.session = none → e.session = none ∧ ∃ l, e'.held = e.held ++ l

variable {e e' : Engine C} {d : Fresh C} {f : Feed C} {frame : Bytes} {now : Time}

@[simp] theorem settle_ne_none (r : Except HandshakeError (Session C)) : (e.settle r).session ≠ none := by
  cases h : e.session <;> simp [settle, h]

theorem settle_ok {r : Except HandshakeError (Session C)} {s : Session C} (h : (e.settle r).session = some (.ok s)) :
    e.session = some (.ok s) ∨ (e.session = none ∧ r = .ok s) := by
  cases hs : e.session with
  | none => simpa [settle, hs] using h
  | some x => simpa [settle, hs] using h

theorem Grows.refl (e : Engine C) : Grows e e := ⟨rfl, fun h => ⟨h, [], (List.append_nil _).symm⟩⟩

/-- Once the promise is settled a feed has nothing to lose. -/
theorem Grows.settled (ho : e'.opts = e.opts) (h : e'.session ≠ none) : Grows e e' := ⟨ho, fun hn => absurd hn h⟩

theorem Grows.getElem? (h : Grows e e') (hn : e'.session = none) {j : Nat} {x : Held} (hx : e.held[j]? = some x) :
    e'.held[j]? = some x := by
  obtain ⟨-, l, hl⟩ := h.held hn
  rw [hl, List.getElem?_append_left (List.getElem?_eq_some_iff.mp hx).1, hx]

theorem Fits.mono (h : e.Fits f) (hg : Grows e e') : e'.Fits f := by
  cases f with
  | completing s msg2 now =>
      rw [Fits, hg.opts]
      exact h
  | stepping s msg2 msg3 r =>
      rw [Fits, hg.opts]
      exact h
  | responding msg1 now => trivial
  | verifying j x key macI => exact fun hn => hg.getElem? hn (h (hg.held hn).1)
  | importing j x ikm =>
      intro hn
      obtain ⟨hx, hikm⟩ := h (hg.held hn).1
      exact ⟨hg.getElem? hn hx, hikm⟩
  | keying j x ikm salt =>
      intro hn
      obtain ⟨hx, hikm, hsalt⟩ := h (hg.held hn).1
      exact ⟨hg.getElem? hn hx, hikm, hsalt⟩

/-! ## One step -/

/-- What holds of the engine that a step leaves, and of what the step waits for. -/
structure Keeps (e : Engine C) (r : Engine C × (Feed C ⊕ Except Refusal (Option Bytes))) : Prop where
  sound : r.1.Sound
  grows : Grows e r.1
  fits : ∀ f, r.2 = .inl f → r.1.Fits f

/-- A step that settles the promise, whatever it does to the buffers. -/
theorem Sound.settle (h : e.Sound) (l : List Held) {r : Except HandshakeError (Session C)}
    (out : Except Refusal (Option Bytes)) (hr : ∀ s, r = .ok s → e.session = none → Comes e.opts s) :
    Keeps e ({ e with held := l }.settle r, .inr out) := by
  have hn : ({ e with held := l }.settle r).session ≠ none := settle_ne_none r
  refine ⟨⟨h.state, fun hnone => absurd hnone hn, ?_⟩, .settled rfl hn, fun f hf => by cases hf⟩
  intro s hs
  obtain hs | ⟨hopen, hrs⟩ := settle_ok hs
  · exact h.session s hs
  · exact hr s hrs hopen

theorem Sound.fail (h : e.Sound) (l : List Held) (err : HandshakeError) : Keeps e ({ e with held := l }.fail err) :=
  h.settle l _ fun _ hs => by cases hs

theorem Sound.idle (h : e.Sound) {out : Feed C ⊕ Except Refusal (Option Bytes)} (hf : ∀ f, out = .inl f → e.Fits f) :
    Keeps e (e, out) := ⟨h, .refl e, hf⟩

theorem sound_start {role : Role} {o : StartOpts C.toPrimitives} (h : start role o d now = .ok e) :
    e.Sound ∧ e.opts = o := by
  cases role with
  | initiator =>
      simp only [start, bind_ok, pure, Except.pure, Except.ok.injEq] at h
      obtain ⟨⟨msg1, s⟩, hi, rfl⟩ := h
      refine ⟨⟨?_, fun _ h hh => (List.not_mem_nil hh).elim, fun s hs => by cases hs⟩, rfl⟩
      intro s' hs'
      cases hs'
      have hmsg1 : s.msg1Bytes = msg1 := by
        simp only [initiate, bind_ok, exists_unit, pure, Except.pure, Except.ok.injEq, Prod.mk.injEq] at hi
        obtain ⟨-, tag, -, b, -, rfl, rfl⟩ := hi
        rfl
      exact ⟨d.ek, d.pq, now, hmsg1.symm ▸ hi⟩
  | responder =>
      cases h
      exact ⟨⟨(fun s hs => by cases hs), fun _ h hh => (List.not_mem_nil hh).elim, fun s hs => by cases hs⟩, rfl⟩

theorem waits_some {j : Nat} {x : Held} (h : e.waits = some (j, x)) : e.held[j]? = some x := by
  simp only [waits, Option.bind_eq_some_iff, Option.map_eq_some_iff, Prod.mk.injEq] at h
  obtain ⟨j, -, x, hx, rfl, rfl⟩ := h
  exact hx

theorem Sound.feed (h : e.Sound) : Keeps e (e.feed frame now) := by
  rw [Engine.feed]
  cases e.role with
  | initiator =>
      cases hs : e.state with
      | none => exact h.idle fun f hf => by cases hf
      | some s =>
          dsimp only
          split
          · exact h.idle fun f hf => by cases hf
          · exact h.idle fun f hf => by cases hf; exact h.state s hs
  | responder =>
      cases hw : e.waits with
      | none =>
          dsimp only
          split
          · exact h.fail e.held _
          · exact h.idle fun f hf => by cases hf; trivial
      | some w =>
          obtain ⟨j, x⟩ := w
          dsimp only
          split
          · exact h.fail e.held _
          · cases decodeMsg3 frame with
            | error err => exact h.fail e.held _
            | ok macI => exact h.idle fun f hf => by cases hf; exact fun _ => waits_some hw

theorem buffer_eq {j : Nat} {x : Held} (h : e.held[j]? = some x) : e.buffer j x = x.state := by
  rw [buffer, List.getD_eq_getElem?_getD, h, Option.getD_some]

theorem Sound.resume (h : e.Sound) (hf : e.Fits f) : Keeps e (e.resume d f) := by
  cases f with
  | completing s msg2 now =>
      simp only [Engine.resume]
      cases hc : initiatorComplete s msg2 now with
      | error err => exact h.fail e.held err
      | ok p =>
          refine ⟨⟨(fun s hs => by cases hs), h.held, h.session⟩, ⟨rfl, fun hn => ⟨hn, [], (List.append_nil _).symm⟩⟩, ?_⟩
          intro f hf'
          cases hf'
          exact ⟨hf, now, hc⟩
  | stepping s msg2 msg3 r =>
      apply h.settle e.held
      intro x hx _
      cases hx
      obtain ⟨hasked, now, hc⟩ := hf
      exact .initiator hasked hc
  | responding msg1 now =>
      simp only [Engine.resume]
      cases hr : respond e.opts.ik e.opts.peerIkPub e.opts.tagKey msg1 d.ek d.coins now MAX_SKEW_MS with
      | error err => exact h.fail e.held err
      | ok p =>
          refine ⟨⟨h.state, ?_, h.session⟩, ⟨rfl, fun hn => ⟨hn, _, rfl⟩⟩, fun f hf' => by cases hf'⟩
          intro hn x hx
          obtain hx | rfl := List.mem_append.mp hx |>.imp_right List.mem_singleton.mp
          · exact h.held hn x hx
          · exact ⟨d.ek, d.coins, now, hr⟩
  | verifying j x key macI =>
      simp only [Engine.resume]
      split
      · exact h.fail _ .macI
      · refine ⟨⟨h.state, h.held, h.session⟩, ⟨rfl, fun hn => ⟨hn, [], (List.append_nil _).symm⟩⟩, ?_⟩
        intro f hf'
        cases hf'
        intro hn
        have hx := hf hn
        exact ⟨hx, by rw [buffer_eq hx]⟩
  | importing j x ikm =>
      apply h.idle
      intro f hf'
      cases hf'
      intro hn
      obtain ⟨hx, hikm⟩ := hf hn
      exact ⟨hx, hikm, by rw [buffer_eq hx]⟩
  | keying j x ikm salt =>
      apply h.settle (e.held.modify j Held.wiped)
      intro y hy hn
      cases hy
      obtain ⟨hx, rfl, rfl⟩ := hf hn
      exact .responder (h.held hn x (List.mem_of_getElem? hx))

/-! ## A feed that nothing runs beside -/

/-- The rest of a feed at once; `n` bounds its awaits. -/
def finish (d : Fresh C) : Nat → Engine C × (Feed C ⊕ Except Refusal (Option Bytes)) →
    Engine C × Except Refusal (Option Bytes)
  | _, (e, .inr out) => (e, out)
  | 0, (e, .inl _) => (e, .error .completed)
  | n + 1, (e, .inl f) => finish d n (e.resume d f)

def alone (e : Engine C) (frame : Bytes) (d : Fresh C) (now : Time) : Engine C × Except Refusal (Option Bytes) :=
  finish d 3 (e.feed frame now)

theorem finish_fail (n : Nat) (e : Engine C) (err : HandshakeError) :
    finish d n (e.fail err) = (e.settle (.error err), .error (.handshake err)) := by
  cases n <;> rfl

theorem finish_inl (n : Nat) (e : Engine C) (f : Feed C) : finish d (n + 1) (e, .inl f) = finish d n (e.resume d f) := rfl

theorem finish_inr (n : Nat) (e : Engine C) (out : Except Refusal (Option Bytes)) :
    finish d n (e, .inr out) = (e, out) := by
  cases n <;> rfl

@[simp] theorem settle_waits (r : Except HandshakeError (Session C)) : (e.settle r).waits = e.waits := rfl

theorem waits_wipe {j : Nat} {x : Held} (h : e.waits = some (j, x)) : (e.wipe j).waits = some (j, x.wiped) := by
  have hx := waits_some h
  simp only [waits, Option.bind_eq_some_iff, Option.map_eq_some_iff, Prod.mk.injEq] at h ⊢
  obtain ⟨k, hk, y, hy, rfl, rfl⟩ := h
  refine ⟨k, hk, y.wiped, ?_, rfl, rfl⟩
  rw [wipe, List.getElem?_modify, hy]
  simp

/-- The responder that the gate is about has the state that this one waits with. -/
theorem alone_responder {s : Responder C.toPrimitives} (hr : e.role = .responder)
    (hs : s.pending = e.waits.map fun w => w.2.state) :
    (e.alone frame d now).2 = (s.feed e.opts ⟨d.ek, d.coins, now⟩ frame).2.mapError .handshake ∧
      ((e.alone frame d now).1.waits.map fun w => w.2.state) = (s.feed e.opts ⟨d.ek, d.coins, now⟩ frame).1.pending := by
  unfold alone Engine.feed Responder.feed
  rw [hr]
  cases hw : e.waits with
  | none =>
      rw [hw] at hs
      rw [hs]
      dsimp only [Option.map_none]
      split
      · rw [finish_fail]
        exact ⟨rfl, by rw [settle_waits, hw]; rfl⟩
      · rw [finish_inl, Engine.resume]
        cases respond e.opts.ik e.opts.peerIkPub e.opts.tagKey frame d.ek d.coins now MAX_SKEW_MS with
        | error err =>
            dsimp only
            rw [finish_fail]
            exact ⟨rfl, by rw [settle_waits, hw]; rfl⟩
        | ok p =>
            dsimp only
            rw [finish_inr]
            refine ⟨rfl, ?_⟩
            simp [waits]
  | some w =>
      obtain ⟨j, x⟩ := w
      rw [hw] at hs
      rw [hs]
      dsimp only [Option.map_some]
      split
      · rw [finish_fail]
        exact ⟨rfl, by rw [settle_waits, hw]; rfl⟩
      · rw [responderComplete]
        cases decodeMsg3 frame with
        | error err =>
            dsimp only
            rw [finish_fail]
            exact ⟨rfl, by rw [settle_waits, hw]; rfl⟩
        | ok macI =>
            dsimp only
            rw [finish_inl, Engine.resume]
            split
            · rw [finish_fail]
              exact ⟨rfl, by rw [settle_waits, waits_wipe hw]; rfl⟩
            · rw [finish_inl, Engine.resume, finish_inl, Engine.resume, finish_inr]
              exact ⟨rfl, rfl⟩

end Engine

/-! ## Two sides of one transcript -/

/-- Whose handshakes they are: the keys of a pair, and the keys that its initiator tags are made with. -/
structure Owner (C : Primitives) where
  ik : C.Priv
  peerIkPub : Bytes
  tagKey : Bytes → Prop

structure Owner.Starts {C : Primitives} (K : Owner C) (o : StartOpts C) : Prop where
  ik : o.ik = K.ik
  peerIkPub : o.peerIkPub = K.peerIkPub
  tagKey : K.tagKey o.tagKey

/-- Two sides of a pair, and what X25519, ML-KEM and HMAC are trusted for between them: both sides of a DH compute one
secret, a ciphertext is opened to the secret it was made with, and no initiator tag of one is one of the other. -/
structure Paired {C : Primitives} (K K' : Owner C) : Prop where
  peer : K.peerIkPub = C.pub K'.ik
  peer' : K'.peerIkPub = C.pub K.ik
  dh_comm : ∀ x y d d', C.dh x (C.pub y) = some d → C.dh y (C.pub x) = some d' → d = d'
  kem : ∀ k m ct ss ss', C.encapsulate (C.kemPub k) m = some (ct, ss) → C.decapsulate k ct = some ss' → ss = ss'
  tags : ∀ k k', K.tagKey k ∨ K'.tagKey k → K.tagKey k' ∨ K'.tagKey k' → C.hmac k (C.pub K.ik) ≠ C.hmac k' (C.pub K'.ik)

/-- Two ratchets start under one root, one of each role, and each receives what the other sends. -/
structure Ratchet.Agrees (x y : Ratchet C) : Prop where
  rk : x.rk = y.rk
  role : x.role ≠ y.role
  ckSend : x.ckSend = y.ckRecv
  ckRecv : x.ckRecv = y.ckSend

section

variable {D : Primitives}

theorem initiatorTag_ok {tagKey ikPub tag : Bytes} :
    initiatorTag D tagKey ikPub = .ok tag ↔ tagKey.length = 32 ∧ D.hmac tagKey ikPub = tag := by
  simp only [initiatorTag, bind_ok, exists_unit, pure, Except.pure, Except.ok.injEq, refuse_ok, not_not]

theorem initiate_ok {ik ekI : D.Priv} {peerIkPub tagKey msg1 : Bytes} {pq : D.KemKey} {now maxSkewMs : Time}
    {s : InitiatorState D} (h : initiate ik peerIkPub tagKey ekI pq now maxSkewMs = .ok (msg1, s)) :
    decodeMsg1 msg1 = .ok ⟨D.pub ekI, D.kemPub pq, now, D.hmac tagKey (D.pub ik)⟩ ∧
      s = ⟨ik, peerIkPub, ekI, pq, msg1, maxSkewMs⟩ := by
  simp only [initiate, bind_ok, exists_unit, wired_ok, initiatorTag_ok, pure, Except.pure, Except.ok.injEq,
    Prod.mk.injEq] at h
  obtain ⟨-, tag, ⟨-, rfl⟩, b, hb, rfl, rfl⟩ := h
  exact ⟨decodeMsg1_ok.mpr hb, rfl⟩

theorem initiatorComplete_keys {s : InitiatorState D} {msg2 msg3 : Bytes} {now : Time} {r : HandshakeResult D}
    (h : initiatorComplete s msg2 now = .ok (msg3, r)) :
    ∃ m d1 d2 d3 ss, decodeMsg2 msg2 = .ok m ∧ D.dh s.ekI s.peerIkPub = some d1 ∧ D.dh s.ik m.ekPub = some d2 ∧
      D.dh s.ekI m.ekPub = some d3 ∧ D.decapsulate s.pq m.kem = some ss ∧
      r = ⟨.initiator, deriveSK D d1 d2 d3 ss (h1 D s.msg1Bytes), some s.ekI, m.ekPub, d3⟩ := by
  simp only [initiatorComplete, bind_ok, exists_unit, wired_ok, call_ok, pure, Except.pure, Except.ok.injEq,
    Prod.mk.injEq] at h
  obtain ⟨m, hm, -, d1, hd1, d2, hd2, d3, hd3, ss, hss, -, -, -, -, -, -, -, -, rfl⟩ := h
  exact ⟨m, d1, d2, d3, ss, hm, hd1, hd2, hd3, hss, rfl⟩

theorem respond_keys {ik ekR : D.Priv} {peerIkPub tagKey msg1 msg2 : Bytes} {coins : D.Coins} {now maxSkewMs : Time}
    {st : ResponderState} (h : respond ik peerIkPub tagKey msg1 ekR coins now maxSkewMs = .ok (msg2, st)) :
    ∃ m1 m d1 d2 d3 ss, decodeMsg1 msg1 = .ok m1 ∧ m1.tag = D.hmac tagKey peerIkPub ∧ decodeMsg2 msg2 = .ok m ∧
      m.ekPub = D.pub ekR ∧ D.encapsulate m1.kem coins = some (m.kem, ss) ∧ D.dh ik m1.ekPub = some d1 ∧
      D.dh ekR peerIkPub = some d2 ∧ D.dh ekR m1.ekPub = some d3 ∧ st.sk = deriveSK D d1 d2 d3 ss (h1 D msg1) ∧
      st.firstStepIkm = d3 := by
  simp only [respond, bind_ok, exists_unit, wired_ok, call_ok, refuse_ok, not_not, initiatorTag_ok, pure, Except.pure,
    Except.ok.injEq, Prod.mk.injEq] at h
  obtain ⟨-, m1, hm1, -, tag, ⟨-, rfl⟩, -, -, htag, ⟨ct, ss⟩, hct, d1, hd1, d2, hd2, d3, hd3, h2p, -, b, hb, -, -, rfl,
    rfl⟩ := h
  exact ⟨m1, _, d1, d2, d3, ss, hm1, htag, decodeMsg2_ok.mpr hb, rfl, hct, hd1, hd2, hd3, rfl, rfl⟩

end

section

variable {K K' : Owner C.toPrimitives} {o o' : StartOpts C.toPrimitives} {x y : Session C}

theorem Paired.symm (T : Paired K K') : Paired K' K :=
  ⟨T.peer', T.peer, T.dh_comm, T.kem, fun k k' hk hk' he => T.tags k' k hk'.symm hk.symm he.symm⟩

theorem Ratchet.Agrees.symm {x y : Ratchet C} (h : x.Agrees y) : y.Agrees x :=
  ⟨h.rk.symm, h.role.symm, h.ckRecv.symm, h.ckSend.symm⟩

/-- Who asked with a msg1, and who answered it, derive the same keys. -/
theorem Paired.keys (T : Paired K K') (ho : K.Starts o) (ho' : K'.Starts o') {s : InitiatorState C.toPrimitives}
    {h : Held} {msg3 : Bytes} {now : Time} {r : HandshakeResult C.toPrimitives} (hasked : Engine.Asked o s)
    (hc : initiatorComplete s h.msg2 now = .ok (msg3, r)) (ha : Engine.Answers o' h) (h1 : s.msg1Bytes = h.msg1) :
    r.role = .initiator ∧ r.sk = h.state.sk ∧ r.firstStepIkm = h.state.firstStepIkm := by
  obtain ⟨ekI, pq, nowI, hi⟩ := hasked
  obtain ⟨ekR, coins, nowR, hr⟩ := ha
  obtain ⟨hm1, hs⟩ := initiate_ok hi
  obtain ⟨m, d1, d2, d3, ss, hm, hd1, hd2, hd3, hss, rfl⟩ := initiatorComplete_keys hc
  obtain ⟨m1', m', d1', d2', d3', ss', hm1', -, hm', hek, hct, hd1', hd2', hd3', hsk, hikm⟩ := respond_keys hr
  obtain ⟨sik, speer, sek, spq, smsg1, sskew⟩ := s
  cases hs
  dsimp only at *
  rw [h1, hm1'] at hm1
  cases hm1
  rw [hm] at hm'
  cases hm'
  rw [ho.peerIkPub, T.peer] at hd1
  rw [ho.ik, hek] at hd2
  rw [hek] at hd3
  rw [ho'.ik] at hd1'
  rw [ho'.peerIkPub, T.peer'] at hd2'
  obtain rfl := T.dh_comm _ _ _ _ hd1 hd1'
  obtain rfl := T.dh_comm _ _ _ _ hd2 hd2'
  obtain rfl := T.dh_comm _ _ _ _ hd3 hd3'
  obtain rfl := T.kem _ _ _ _ _ hct hss
  exact ⟨rfl, by rw [hsk, h1], hikm.symm⟩

theorem Paired.agrees_of_keys (T : Paired K K') (ho : K.Starts o) (ho' : K'.Starts o')
    {s : InitiatorState C.toPrimitives} {h : Held} {msg3 : Bytes} {now : Time} {r : HandshakeResult C.toPrimitives}
    (hasked : Engine.Asked o s) (hc : initiatorComplete s h.msg2 now = .ok (msg3, r)) (ha : Engine.Answers o' h)
    (h1 : s.msg1Bytes = h.msg1) :
    (ratchetFrom (C := C) r.role r.ekSelf r.ekPeerPub (C.dhStep r.sk r.firstStepIkm)).Agrees
      (ratchetFrom .responder none h.state.ekPeerPub (C.dhStep h.state.sk h.state.firstStepIkm)) := by
  obtain ⟨hrole, hsk, hikm⟩ := T.keys ho ho' hasked hc ha h1
  rw [hrole, hsk, hikm]
  exact ⟨rfl, by simp [ratchetFrom], rfl, rfl⟩

/-- The tag of a msg1 that was answered is that of the peer it is answered as. -/
theorem Engine.Answers.tag {h : Held} (ha : Engine.Answers o h) :
    ∃ m1, decodeMsg1 h.msg1 = .ok m1 ∧ m1.tag = C.hmac o.tagKey o.peerIkPub := by
  obtain ⟨ekR, coins, now, hr⟩ := ha
  obtain ⟨m1, _, _, _, _, _, hm1, htag, -⟩ := respond_keys hr
  exact ⟨m1, hm1, htag⟩

/-- The tag of a msg1 is that of who asked with it. -/
theorem Engine.Asked.tag {s : InitiatorState C.toPrimitives} (h : Engine.Asked o s) :
    ∃ m1, decodeMsg1 s.msg1Bytes = .ok m1 ∧ m1.tag = C.hmac o.tagKey (C.pub o.ik) := by
  obtain ⟨ekI, pq, now, hi⟩ := h
  exact ⟨_, (initiate_ok hi).1, rfl⟩

/-- The sessions that two sides have of one msg1 and one msg2. -/
theorem Paired.agrees (T : Paired K K') (ho : K.Starts o) (ho' : K'.Starts o') (hx : Engine.Comes o x)
    (hy : Engine.Comes o' y) (h1 : x.msg1 = y.msg1) (h2 : x.msg2 = y.msg2) : x.ratchet.Agrees y.ratchet := by
  cases hx with
  | initiator hasked hc =>
      cases hy with
      | initiator hasked' hc' =>
          -- The msg1 of both would carry the tags of both.
          dsimp only at h1
          obtain ⟨m, hm, htag⟩ := hasked.tag
          obtain ⟨m', hm', htag'⟩ := hasked'.tag
          rw [h1, hm'] at hm
          cases hm
          rw [htag, ho.ik, ho'.ik] at htag'
          exact absurd htag' (T.tags _ _ (Or.inl ho.tagKey) (Or.inr ho'.tagKey))
      | responder ha =>
          dsimp only at h2
          subst h2
          exact T.agrees_of_keys ho ho' hasked hc ha h1
  | responder ha =>
      cases hy with
      | initiator hasked hc =>
          dsimp only at h2
          subst h2
          exact (T.symm.agrees_of_keys ho' ho hasked hc ha h1.symm).symm
      | responder ha' =>
          dsimp only at h1
          obtain ⟨m, hm, htag⟩ := ha.tag
          obtain ⟨m', hm', htag'⟩ := ha'.tag
          rw [h1, hm'] at hm
          cases hm
          rw [htag, ho.peerIkPub, ho'.peerIkPub, T.peer, T.peer'] at htag'
          exact absurd htag'.symm (T.tags _ _ (Or.inr ho'.tagKey) (Or.inl ho.tagKey))

end

end EncedoChat.Handshake
