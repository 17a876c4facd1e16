import EncedoChat.Lib.Slots
import EncedoChat.Core.Ratchet
import EncedoChat.Core.Wire

/-!
# The handles of the Rust core

The table of `core-rs/src/ffi.rs` and of `src-tauri/src/core_native.rs`, and the calls that go through it. The crate's
handshake and ratchet are a parameter: the calls hand its objects on and look at none of them. The calls that the two
hosts have alike are one definition; where they differ, the host says how.
-/

namespace EncedoChat.Core

/-- Why the handshake stops. -/
inductive HandshakeError where
  | wire (why : String)
  | skew
  | secondWindow
  | notTheContact
  | macR
  | macI
  | kem
  deriving DecidableEq

/-- `handshake.rs` and `ratchet.rs` as the calls use them. `random` is what the host's generator gives to a call. -/
structure Crate where
  Initiator : Type
  ResponderBegin : Type
  Responder : Type
  HandshakeResult : Type
  Ratchet : Type
  initiator (ik peer tagKey random : Bytes) (now : Nat) : Initiator
  msg1 : Initiator → Bytes
  peerEkOf : Initiator → Bytes → Except HandshakeError Bytes
  completeI : Initiator → Bytes → Bytes → Nat → Except HandshakeError (Bytes × HandshakeResult)
  responderBegin (ik peer tagKey msg1 : Bytes) (now : Nat) : Except HandshakeError ResponderBegin
  peerEk : ResponderBegin → Bytes
  completeR : ResponderBegin → Bytes → Bytes → Except HandshakeError (Bytes × Responder)
  finish : Responder → Bytes → Except HandshakeError HandshakeResult
  fromHandshake : HandshakeResult → RatchetOpts → Nat → Ratchet
  encrypt : Ratchet → Bytes → Nat → Bytes → Ratchet × Bytes
  decrypt : Ratchet → Bytes → Nat → Bytes → Ratchet × Except Nat (Option Bytes)
  stats : Ratchet → Bytes

inductive Obj (C : Crate) where
  | init (o : C.Initiator)
  | respBegin (o : C.ResponderBegin)
  | resp (o : C.Responder)
  | done (o : C.HandshakeResult)
  | rt (o : C.Ratchet)

/-- What an object was made for. The code does not keep it, and no call looks at it. -/
inductive Owner where
  | handshake (adapter : Nat)
  | session (i : Nat)
  deriving DecidableEq

abbrev Table (C : Crate) := Slots (Owner × Obj C)

/-- Where the core runs. -/
inductive Host where
  | wasm
  | native
  deriving DecidableEq

inductive Fault where
  /-- `not an initiator handle` -/
  | notInitiator
  /-- `not a responder handle` -/
  | notResponder
  /-- `handshake not complete` -/
  | notComplete
  /-- `not a session handle` -/
  | notSession
  /-- `expected 32 bytes` -/
  | bytes32
  | handshake (e : HandshakeError)
  /-- `peer skipped {n} messages, over the bound` -/
  | skipped (n : Nat)
  deriving DecidableEq

/-- A call's number, where it has one, and its output. -/
structure Answer where
  number : Nat
  out : Bytes

namespace Table

variable {C : Crate}

/-- Takes the object out, of whatever kind it is. -/
def take (t : Table C) (n : Nat) : Option (Owner × Obj C) × Table C := (t.get n, t.clear n)

/-- A call on an object of its kind: what it returns, and what it gives back. One of another kind is lost. -/
def through (t : Table C) (n : Nat) (fault : Fault) (f : Obj C → Option (Except Fault Answer × Option (Obj C))) :
    Except Fault Answer × Table C :=
  match t.take n with
  | (none, t) => (.error fault, t)
  | (some (who, o), t) =>
    match f o with
    | none => (.error fault, t)
    | some (r, none) => (r, t)
    | some (r, some o) => (r, Slots.giveBack t (who, o) n)

/-- `ec_hs_initiate`, `core_initiate` -/
def hsInitiate (t : Table C) (who : Owner) (ik peer tagKey random : Bytes) (now : Nat) : Answer × Table C :=
  let init := C.initiator ik peer tagKey random now
  let p := Slots.put t (who, .init init)
  (⟨p.1, C.msg1 init⟩, p.2)

/-- `ec_hs_peer_ek`, `core_peer_ek` -/
def hsPeerEk (t : Table C) (n : Nat) (msg2 : Bytes) : Except Fault Answer × Table C :=
  t.through n .notInitiator fun
    | .init init =>
      match C.peerEkOf init msg2 with
      | .ok ek => some (.ok ⟨0, ek⟩, some (.init init))
      | .error e => some (.error (.handshake e), some (.init init))
    | _ => none

/-- `ec_hs_initiator_complete`, `core_initiator_complete`; an error keeps nothing. -/
def hsInitiatorComplete (host : Host) (t : Table C) (n : Nat) (msg2 dh2 : Bytes) (now : Nat) :
    Except Fault Answer × Table C :=
  t.through n .notInitiator fun
    | .init init =>
      if host = .native ∧ dh2.length ≠ 32 then some (.error .bytes32, none)
      else
        match C.completeI init msg2 dh2 now with
        | .ok (msg3, res) => some (.ok ⟨0, msg3⟩, some (.done res))
        | .error e => some (.error (.handshake e), none)
    | _ => none

/-- `ec_hs_respond`, `core_respond` -/
def hsRespond (t : Table C) (who : Owner) (ik peer tagKey msg1 : Bytes) (now : Nat) : Except Fault Answer × Table C :=
  match C.responderBegin ik peer tagKey msg1 now with
  | .ok rb =>
    let p := Slots.put t (who, .respBegin rb)
    (.ok ⟨p.1, C.peerEk rb⟩, p.2)
  | .error e => (.error (.handshake e), t)

/-- `ec_hs_responder_complete`, `core_responder_complete` -/
def hsResponderComplete (host : Host) (t : Table C) (n : Nat) (dh1 random : Bytes) : Except Fault Answer × Table C :=
  t.through n .notResponder fun
    | .respBegin rb =>
      if host = .native ∧ dh1.length ≠ 32 then some (.error .bytes32, none)
      else
        match C.completeR rb dh1 random with
        | .ok (msg2, resp) => some (.ok ⟨0, msg2⟩, some (.resp resp))
        | .error e => some (.error (.handshake e), none)
    | _ => none

/-- `ec_hs_responder_finish`, `core_responder_finish` -/
def hsResponderFinish (t : Table C) (n : Nat) (msg3 : Bytes) : Except Fault Answer × Table C :=
  t.through n .notResponder fun
    | .resp resp =>
      match C.finish resp msg3 with
      | .ok res => some (.ok ⟨0, []⟩, some (.done res))
      | .error e => some (.error (.handshake e), none)
    | _ => none

/-- The bounds that are given, over the default ones. -/
def optsOf (pqEverySteps : UInt32) (pqEveryMs : UInt64) (maxSkip : UInt32) : RatchetOpts :=
  let opts : RatchetOpts := {}
  let opts := if pqEverySteps > 0 then { opts with pqEverySteps } else opts
  let opts := if pqEveryMs > 0 then { opts with pqEveryMs } else opts
  if maxSkip > 0 then { opts with maxSkipPerChain := maxSkip } else opts

/-- `ec_session`, `core_session`: the handshake's object is used up, and the ratchet is put in a free slot. -/
def session (t : Table C) (n : Nat) (who : Owner) (opts : RatchetOpts) (now : Nat) : Except Fault Answer × Table C :=
  match t.take n with
  | (some (_, .done res), t) =>
    let p := Slots.put t (who, .rt (C.fromHandshake res opts now))
    (.ok ⟨p.1, []⟩, p.2)
  | (_, t) => (.error .notComplete, t)

/-- `ec_rt_encrypt`, `core_encrypt` -/
def rtEncrypt (t : Table C) (n : Nat) (random : Bytes) (now : Nat) (pt : Bytes) : Except Fault Answer × Table C :=
  t.through n .notSession fun
    | .rt rt =>
      let (rt, frame) := C.encrypt rt random now pt
      some (.ok ⟨0, frame⟩, some (.rt rt))
    | _ => none

/-- Number 1 is not ours, tampered or a replay. -/
def opened : Except Nat (Option Bytes) → Except Fault Answer
  | .ok (some pt) => .ok ⟨0, pt⟩
  | .ok none => .ok ⟨1, []⟩
  | .error n => .error (.skipped n)

/-- `ec_rt_decrypt`, `core_decrypt` -/
def rtDecrypt (t : Table C) (n : Nat) (random : Bytes) (now : Nat) (frame : Bytes) : Except Fault Answer × Table C :=
  t.through n .notSession fun
    | .rt rt =>
      let (rt, r) := C.decrypt rt random now frame
      some (opened r, some (.rt rt))
    | _ => none

/-- `ec_rt_stats` -/
def rtStats (t : Table C) (n : Nat) : Except Fault Answer × Table C :=
  t.through n .notSession fun
    | .rt rt => some (.ok ⟨0, C.stats rt⟩, some (.rt rt))
    | _ => none

/-- `ec_drop`, `core_drop` -/
def drop (t : Table C) (n : Nat) : Table C := (t.take n).2

/-! ## What a call leaves alone -/

variable {t t' : Table C} {n : Nat} {who : Owner}

/-- The slot has what its user put there, or nothing. -/
def Mine (t : Table C) (n : Nat) (who : Owner) : Prop := ∀ x ∈ t.get n, x.1 = who

/-- Whatever belongs to anybody else stays where it is, as it is. -/
def Spares (t t' : Table C) (who : Owner) : Prop := ∀ m x, t.get m = some x → x.1 ≠ who → t'.get m = some x

theorem Spares.trans {t'' : Table C} (h : t.Spares t' who) (h' : t'.Spares t'' who) : t.Spares t'' who :=
  fun m x hx hne => h' m x (h m x hx hne) hne

/-- What a call has done that takes from the slot: the object is lost, or something of the same owner is given back. -/
inductive Leaves (t : Table C) (n : Nat) : Table C → Prop
  | lost : Leaves t n (t.clear n)
  | kept {who : Owner} {o o' : Obj C} : t.get n = some (who, o) → Leaves t n (Slots.giveBack (t.clear n) (who, o') n)

theorem Leaves.get_ne (h : t.Leaves n t') {m : Nat} (hne : m ≠ n) : t'.get m = t.get m := by
  cases h with
  | lost => rw [Slots.get_clear, if_neg hne]
  | kept hx =>
      rw [Slots.giveBack_clear, Slots.get_giveBack t _ (by rw [hx]; exact Option.some_ne_none _), if_neg hne]

theorem Leaves.spares (h : t.Leaves n t') (hmine : t.Mine n who) : t.Spares t' who := by
  intro m x hx hne
  rw [h.get_ne, hx]
  rintro rfl
  exact hne (hmine x hx)

theorem Leaves.mine (h : t.Leaves n t') (hmine : t.Mine n who) : t'.Mine n who := by
  intro x hx
  cases h with
  | lost =>
      rw [Slots.get_clear, if_pos rfl] at hx
      cases hx
  | kept ho =>
      rw [Slots.giveBack_clear, Slots.get_giveBack t _ (by rw [ho]; exact Option.some_ne_none _), if_pos rfl] at hx
      cases hx
      have hwho := hmine _ ho
      exact hwho

theorem leaves_through (t : Table C) (n : Nat) (fault : Fault)
    (f : Obj C → Option (Except Fault Answer × Option (Obj C))) : t.Leaves n (t.through n fault f).2 := by
  unfold through take
  cases hx : t.get n with
  | none => exact .lost
  | some x =>
      obtain ⟨who, o⟩ := x
      dsimp only
      split
      · exact .lost
      · exact .lost
      · exact .kept hx

theorem through_some {o o' : Obj C} {r : Except Fault Answer} {fault : Fault}
    {f : Obj C → Option (Except Fault Answer × Option (Obj C))} (hx : t.get n = some (who, o))
    (hf : f o = some (r, some o')) :
    (t.through n fault f).1 = r ∧ (t.through n fault f).2.get n = some (who, o') := by
  unfold through take
  rw [hx]
  dsimp only
  rw [hf]
  refine ⟨rfl, ?_⟩
  dsimp only
  rw [Slots.giveBack_clear, Slots.get_giveBack t _ (by rw [hx]; exact Option.some_ne_none _), if_pos rfl]

/-- Nothing is made, or a completed handshake becomes a ratchet in a slot that nothing is in. -/
theorem session_cases (t : Table C) (n : Nat) (who : Owner) (opts : RatchetOpts) (now : Nat) :
    t.session n who opts now = (.error .notComplete, t.clear n) ∨
      ∃ rt, t.session n who opts now =
        (.ok ⟨(Slots.put (t.clear n) (who, .rt rt)).1, []⟩, (Slots.put (t.clear n) (who, .rt rt)).2) := by
  unfold session take
  cases hx : t.get n with
  | none => exact Or.inl rfl
  | some x =>
      obtain ⟨who', o⟩ := x
      cases o with
      | done res => exact Or.inr ⟨_, rfl⟩
      | _ => exact Or.inl rfl

/-! ## The calls of a session -/

theorem rtEncrypt_ok {rt : C.Ratchet} (h : t.get n = some (who, .rt rt)) (random : Bytes) (now : Nat) (pt : Bytes) :
    (t.rtEncrypt n random now pt).1 = .ok ⟨0, (C.encrypt rt random now pt).2⟩ ∧
      (t.rtEncrypt n random now pt).2.get n = some (who, .rt (C.encrypt rt random now pt).1) :=
  through_some h rfl

theorem rtDecrypt_ok {rt : C.Ratchet} (h : t.get n = some (who, .rt rt)) (random : Bytes) (now : Nat) (frame : Bytes) :
    (t.rtDecrypt n random now frame).1 = opened (C.decrypt rt random now frame).2 ∧
      (t.rtDecrypt n random now frame).2.get n = some (who, .rt (C.decrypt rt random now frame).1) :=
  through_some h rfl

theorem rtStats_ok {rt : C.Ratchet} (h : t.get n = some (who, .rt rt)) :
    (t.rtStats n).1 = .ok ⟨0, C.stats rt⟩ ∧ (t.rtStats n).2.get n = some (who, .rt rt) :=
  through_some h rfl

theorem opened_ne (r : Except Nat (Option Bytes)) : opened r ≠ .error .notSession := by
  intro he
  cases r with
  | error n => cases he
  | ok out => cases out <;> cases he

end Table

end EncedoChat.Core
