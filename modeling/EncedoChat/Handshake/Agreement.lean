import EncedoChat.Handshake.Gate

/-!
# Agreement

Any number of handshakes of honest sides, over a network that delivers whatever it likes: who completes with an
honest peer shares its transcript, its keys and its view of who is talking with that peer.
-/

namespace EncedoChat.Handshake

variable {C : Primitives}

/-! ## What the primitives are trusted for -/

/-- The keys of honest sides, what the network knows, and the strings that honest sides hash and derive from. -/
structure Setting (C : Primitives) where
  identity : C.Priv → Prop
  ephemeral : C.Priv → Prop
  known : Bytes → Prop
  hashed : Bytes → Prop
  keyed : Bytes → Bytes → Prop
  apart : ∀ x, identity x → ¬ephemeral x
  length_dh : ∀ x q d, C.dh x q = some d → d.length = 32
  /-- A secret of two honest keys is computed with one of them, from the other. -/
  dh_inj : ∀ x y z q d, identity x ∨ ephemeral x → identity y ∨ ephemeral y → C.dh x (C.pub y) = some d →
    C.dh z q = some d → (z = x ∧ q = C.pub y) ∨ (z = y ∧ q = C.pub x)
  dh_secret : ∀ x y d, identity x ∨ ephemeral x → identity y ∨ ephemeral y → C.dh x (C.pub y) = some d → ¬known d
  sha_inj : ∀ a b, hashed a → hashed b → C.sha256 a = C.sha256 b → a = b
  hkdf_inj : ∀ a s b t, keyed a s → keyed b t → C.hkdf a s SK_INFO = C.hkdf b t SK_INFO → a = b ∧ s = t
  /-- A derived key is known to those who know what it is derived from. -/
  hkdf_secret : ∀ dh1 dh2 dh3 ss s, keyed (dh1 ++ (dh2 ++ (dh3 ++ ss))) s → known (deriveSK C dh1 dh2 dh3 ss s) →
    known dh1 ∧ known dh2

/-! ## Sessions -/

/-- A call of `initiatorComplete` that returned. -/
structure Completion (C : Primitives) where
  state : InitiatorState C
  msg2 : Bytes
  msg3 : Bytes
  result : HandshakeResult C

/-- A call of `respond` that returned. -/
structure Answer (C : Primitives) where
  ik : C.Priv
  peerIkPub : Bytes
  ekR : C.Priv
  msg1 : Bytes
  msg2 : Bytes
  state : ResponderState

/-- A call of `responderComplete` that returned. -/
structure Finish (C : Primitives) where
  answer : Answer C
  msg3 : Bytes
  result : HandshakeResult C

structure World (C : Primitives) where
  begun : List (InitiatorState C)
  completed : List (Completion C)
  /-- with what failed attempts left of the state -/
  answered : List (Answer C × ResponderState)
  finished : List (Finish C)

/-- What honest sides do, with frames as the network delivers them. -/
inductive WorldAct (C : Primitives) where
  | initiate (ik : C.Priv) (peerIkPub tagKey : Bytes) (ekI : C.Priv) (pq : C.KemKey) (now maxSkewMs : Time)
  | complete (i : Nat) (msg2 : Bytes) (now : Time)
  | respond (ik : C.Priv) (peerIkPub tagKey msg1 : Bytes) (ekR : C.Priv) (coins : C.Coins) (now maxSkewMs : Time)
  | finish (j : Nat) (msg3 : Bytes)

namespace World

def start : World C := ⟨[], [], [], []⟩

def answers (w : World C) : List (Answer C) := w.answered.map Prod.fst

def act (w : World C) : WorldAct C → World C
  | .initiate ik peerIkPub tagKey ekI pq now maxSkewMs =>
    match initiate ik peerIkPub tagKey ekI pq now maxSkewMs with
    | .error _ => w
    | .ok (_, s) => { w with begun := w.begun ++ [s] }
  | .complete i msg2 now =>
    match w.begun[i]? with
    | none => w
    | some s =>
      match initiatorComplete s msg2 now with
      | .error _ => w
      | .ok (msg3, r) => { w with completed := ⟨s, msg2, msg3, r⟩ :: w.completed }
  | .respond ik peerIkPub tagKey msg1 ekR coins now maxSkewMs =>
    match respond ik peerIkPub tagKey msg1 ekR coins now maxSkewMs with
    | .error _ => w
    | .ok (msg2, st) => { w with answered := w.answered ++ [(⟨ik, peerIkPub, ekR, msg1, msg2, st⟩, st)] }
  | .finish j msg3 =>
    match w.answered[j]? with
    | none => w
    | some (a, st) =>
      match responderComplete C st msg3 with
      | (st', .error _) => { w with answered := w.answered.set j (a, st') }
      | (st', .ok r) => { w with answered := w.answered.set j (a, st'), finished := ⟨a, msg3, r⟩ :: w.finished }

end World

/-! ## Transcripts -/

/-- The string that `h2_partial` hashes, and `mac_r`. -/
def transcript (msg1 msg2 : Bytes) : Option (Bytes × Bytes) :=
  match decodeMsg2 msg2 with
  | .error _ => none
  | .ok m =>
    match u64be m.ts with
    | .error _ => none
    | .ok ts => some (msg1 ++ (m.ekPub ++ (m.kem ++ ts)), m.tag)

/-- The strings hashed on the way to `h3`. -/
def hashInputs (C : Primitives) (msg1 msg2 : Bytes) : List Bytes :=
  match transcript msg1 msg2 with
  | none => [msg1]
  | some (t, macR) => [msg1, t, C.sha256 t ++ macR]

/-- The input keying material that the initiator has for a msg2. -/
def InitiatorState.ikm (s : InitiatorState C) (msg2 : Bytes) : Option Bytes :=
  match decodeMsg2 msg2 with
  | .error _ => none
  | .ok m => do
    let dh1 ← C.dh s.ekI s.peerIkPub
    let dh2 ← C.dh s.ik m.ekPub
    let dh3 ← C.dh s.ekI m.ekPub
    let ss ← C.decapsulate s.pq m.kem
    return dh1 ++ (dh2 ++ (dh3 ++ ss))

/-- The input keying material that a responder has for a msg1. -/
def responderIkm (ik : C.Priv) (peerIkPub msg1 : Bytes) (ekR : C.Priv) (coins : C.Coins) : Option Bytes :=
  match decodeMsg1 msg1 with
  | .error _ => none
  | .ok m => do
    let dh1 ← C.dh ik m.ekPub
    let dh2 ← C.dh ekR peerIkPub
    let dh3 ← C.dh ekR m.ekPub
    let (_, ss) ← C.encapsulate m.kem coins
    return dh1 ++ (dh2 ++ (dh3 ++ ss))

/-- An honest side made the MAC, as responder or as initiator. -/
def World.Made (w : World C) (k text : Bytes) : Prop :=
  (∃ a ∈ w.answers, ∃ t, transcript a.msg1 a.msg2 = some t ∧ k = a.state.sk ∧ text = LABEL_R ++ C.sha256 t.1) ∨
  (∃ c ∈ w.completed, ∃ t, transcript c.state.msg1Bytes c.msg2 = some t ∧ k = c.result.sk ∧
    text = LABEL_I ++ C.sha256 (C.sha256 t.1 ++ t.2))

/-- No hash collides, and a MAC that verifies was made by an honest side or under a key that the network knows. -/
def Ideal (A : Setting C) (w : World C) : WorldAct C → Prop
  | .initiate ik _ _ ekI _ _ _ => A.identity ik ∧ A.ephemeral ekI
  | .complete i msg2 now => ∀ s msg3 r, w.begun[i]? = some s → initiatorComplete s msg2 now = .ok (msg3, r) →
      (∀ b ∈ hashInputs C s.msg1Bytes msg2, A.hashed b) ∧
      (∀ ikm, s.ikm msg2 = some ikm → A.keyed ikm (h1 C s.msg1Bytes)) ∧
      ∀ t, transcript s.msg1Bytes msg2 = some t → w.Made r.sk (LABEL_R ++ C.sha256 t.1) ∨ A.known r.sk
  | .respond ik peerIkPub tagKey msg1 ekR coins now maxSkewMs => A.identity ik ∧ A.ephemeral ekR ∧
      ∀ msg2 st, respond ik peerIkPub tagKey msg1 ekR coins now maxSkewMs = .ok (msg2, st) →
        (∀ b ∈ hashInputs C msg1 msg2, A.hashed b) ∧
        ∀ ikm, responderIkm ik peerIkPub msg1 ekR coins = some ikm → A.keyed ikm (h1 C msg1)
  | .finish j msg3 => ∀ a st, w.answered[j]? = some (a, st) → Gate.Proves C st msg3 →
      w.Made st.sk (LABEL_I ++ st.h3) ∨ A.known st.sk

/-- A responder whose last msg3 failed is not handed a msg3 under the key that is left. -/
def Untouched (w : World C) : WorldAct C → Prop
  | .finish j msg3 => ∀ a st, w.answered[j]? = some (a, st) → st ≠ a.state → ¬Gate.Proves C st msg3
  | _ => True

/-- Both sides ran the other role of one transcript, each with the other, and hold the same keys. -/
structure Matches (c : Completion C) (a : Answer C) : Prop where
  msg1 : a.msg1 = c.state.msg1Bytes
  msg2 : a.msg2 = c.msg2
  peerR : a.peerIkPub = C.pub c.state.ik
  peerI : c.state.peerIkPub = C.pub a.ik
  sk : a.state.sk = c.result.sk
  firstStepIkm : a.state.firstStepIkm = c.result.firstStepIkm

structure World.Agrees (A : Setting C) (w : World C) : Prop where
  initiator : ∀ c ∈ w.completed, c.result.role = .initiator ∧
    ∀ p, A.identity p → c.state.peerIkPub = C.pub p → ∃ a ∈ w.answers, a.ik = p ∧ Matches c a
  responder : ∀ f ∈ w.finished, f.result = Gate.resultOf C f.answer.state ∧
    ∀ p, A.identity p → f.answer.peerIkPub = C.pub p →
      ∃ c ∈ w.completed, c.state.ik = p ∧ Matches c f.answer ∧ c.msg3 = f.msg3

/-! ## What a call that returns has computed -/

theorem wired_ok {α : Type} {x : Except WireError α} {a : α} : wired x = .ok a ↔ x = .ok a := by
  cases x <;> simp [wired, Except.mapError]

theorem call_ok {α : Type} {x : Option α} {a : α} : call x = .ok a ↔ x = some a := elim_ok

theorem h2Partial_ok {msg1 ek ct d : Bytes} {ts : Time} (h : h2Partial C msg1 ek ct ts = .ok d) :
    ∃ b, u64be ts = .ok b ∧ d = C.sha256 (msg1 ++ (ek ++ (ct ++ b))) := by
  simp only [h2Partial, bind_ok, exists_unit, pure, Except.pure, Except.ok.injEq] at h
  obtain ⟨-, -, b, hb, rfl⟩ := h
  exact ⟨b, hb, rfl⟩

theorem h3_ok {h2p macR d : Bytes} (h : h3 C h2p macR = .ok d) : h2p.length = 32 ∧ d = C.sha256 (h2p ++ macR) := by
  simp only [h3, bind_ok, exists_unit, fixed_ok, pure, Except.pure, Except.ok.injEq] at h
  exact ⟨h.1, h.2.2.symm⟩

theorem transcript_eq {msg1 msg2 ts : Bytes} {m : Msg2} (hm : decodeMsg2 msg2 = .ok m) (hts : u64be m.ts = .ok ts) :
    transcript msg1 msg2 = some (msg1 ++ (m.ekPub ++ (m.kem ++ ts)), m.tag) := by
  rw [transcript, hm]
  dsimp only
  rw [hts]

/-- What `initiatorComplete` has computed; `t` is what `h2_partial` hashes. -/
structure Completed (s : InitiatorState C) (msg2 msg3 : Bytes) (r : HandshakeResult C) (m : Msg2)
    (d1 d2 d3 ss t : Bytes) : Prop where
  decoded : decodeMsg2 msg2 = .ok m
  dh1 : C.dh s.ekI s.peerIkPub = some d1
  dh2 : C.dh s.ik m.ekPub = some d2
  dh3 : C.dh s.ekI m.ekPub = some d3
  ikm : s.ikm msg2 = some (d1 ++ (d2 ++ (d3 ++ ss)))
  transcript : Handshake.transcript s.msg1Bytes msg2 = some (t, m.tag)
  result : r = ⟨.initiator, deriveSK C d1 d2 d3 ss (h1 C s.msg1Bytes), some s.ekI, m.ekPub, d3⟩
  macR : mac C r.sk LABEL_R (C.sha256 t) = m.tag
  length : (C.sha256 t).length = 32
  msg3 : encodeMsg3 (mac C r.sk LABEL_I (C.sha256 (C.sha256 t ++ m.tag))) = .ok msg3

theorem initiatorComplete_ok {s : InitiatorState C} {msg2 msg3 : Bytes} {now : Time} {r : HandshakeResult C}
    (h : initiatorComplete s msg2 now = .ok (msg3, r)) :
    ∃ m d1 d2 d3 ss t, Completed s msg2 msg3 r m d1 d2 d3 ss t := by
  simp only [initiatorComplete, bind_ok, exists_unit, wired_ok, call_ok, pure, Except.pure, Except.ok.injEq,
    Prod.mk.injEq] at h
  obtain ⟨m, hm, -, dh1, hdh1, dh2, hdh2, dh3, hdh3, ss, hss, h2p, hh2p, hmac, d, hd, msg3', hmsg3, rfl, rfl⟩ := h
  obtain ⟨b, hb, rfl⟩ := h2Partial_ok hh2p
  obtain ⟨hlen, rfl⟩ := h3_ok hd
  have hmac := (Bool.not_eq_false _).mp (refuse_ok.mp hmac)
  refine ⟨m, dh1, dh2, dh3, ss, _, hm, hdh1, hdh2, hdh3, ?_, transcript_eq hm hb, rfl, of_decide_eq_true hmac, hlen, hmsg3⟩
  simp only [InitiatorState.ikm, hm, hdh1, hdh2, hdh3, hss]
  rfl

/-- What `respond` has computed; `m` is the msg2 that it answers with. -/
structure Answered (a : Answer C) (coins : C.Coins) (m1 : Msg1) (m : Msg2) (d1 d2 d3 ss t : Bytes) : Prop where
  decoded : decodeMsg1 a.msg1 = .ok m1
  msg2 : decodeMsg2 a.msg2 = .ok m
  ekPub : m.ekPub = C.pub a.ekR
  dh1 : C.dh a.ik m1.ekPub = some d1
  dh2 : C.dh a.ekR a.peerIkPub = some d2
  dh3 : C.dh a.ekR m1.ekPub = some d3
  ikm : responderIkm a.ik a.peerIkPub a.msg1 a.ekR coins = some (d1 ++ (d2 ++ (d3 ++ ss)))
  transcript : Handshake.transcript a.msg1 a.msg2 = some (t, m.tag)
  state : a.state = ⟨deriveSK C d1 d2 d3 ss (h1 C a.msg1), C.sha256 (C.sha256 t ++ m.tag), m1.ekPub, d3⟩
  macR : mac C a.state.sk LABEL_R (C.sha256 t) = m.tag
  length : (C.sha256 t).length = 32

theorem respond_ok {ik ekR : C.Priv} {peerIkPub tagKey msg1 msg2 : Bytes} {coins : C.Coins} {now maxSkewMs : Time}
    {st : ResponderState} (h : respond ik peerIkPub tagKey msg1 ekR coins now maxSkewMs = .ok (msg2, st)) :
    ∃ m1 m d1 d2 d3 ss t, Answered ⟨ik, peerIkPub, ekR, msg1, msg2, st⟩ coins m1 m d1 d2 d3 ss t := by
  simp only [respond, bind_ok, exists_unit, wired_ok, call_ok, pure, Except.pure, Except.ok.injEq, Prod.mk.injEq] at h
  obtain ⟨-, m1, hm1, -, tag, -, own, -, -, ⟨ct, ss⟩, hct, dh1, hdh1, dh2, hdh2, dh3, hdh3, h2p, hh2p, msg2', hmsg2,
    d, hd, rfl, rfl⟩ := h
  obtain ⟨b, hb, rfl⟩ := h2Partial_ok hh2p
  obtain ⟨hlen, rfl⟩ := h3_ok hd
  have hm := decodeMsg2_ok.mpr hmsg2
  refine ⟨m1, _, dh1, dh2, dh3, ss, _, hm1, hm, rfl, hdh1, hdh2, hdh3, ?_, transcript_eq hm hb, rfl, rfl, hlen⟩
  simp only [responderIkm, hm1, hdh1, hdh2, hdh3, hct]
  rfl

/-! ## One transcript -/

theorem u64be_inj {m n : Time} {b : Bytes} (hm : u64be m = .ok b) (hn : u64be n = .ok b) : m = n := by
  obtain ⟨⟨hm0, hm1⟩, hmb⟩ := u64be_ok.mp hm
  obtain ⟨⟨hn0, hn1⟩, hnb⟩ := u64be_ok.mp hn
  have hlt : ∀ x : Time, x ≤ (MAX_SAFE : Int) → x.toNat < 256 ^ 8 := by
    intro x hx
    exact lt_of_le_of_lt (Int.toNat_le.mpr hx) (by decide)
  have h : m.toNat % 256 ^ 8 = n.toNat % 256 ^ 8 := by
    rw [← Bytes.toNat_ofNat 8 m.toNat, ← Bytes.toNat_ofNat 8 n.toNat]
    exact congrArg Bytes.toNat (hmb.trans hnb.symm)
  rw [Nat.mod_eq_of_lt (hlt m hm1), Nat.mod_eq_of_lt (hlt n hn1)] at h
  rw [← Int.toNat_of_nonneg hm0, h, Int.toNat_of_nonneg hn0]

theorem transcript_ok {msg1 msg2 t tag : Bytes} (h : transcript msg1 msg2 = some (t, tag)) :
    ∃ m ts, decodeMsg2 msg2 = .ok m ∧ u64be m.ts = .ok ts ∧ t = msg1 ++ (m.ekPub ++ (m.kem ++ ts)) ∧ tag = m.tag := by
  unfold transcript at h
  cases hm : decodeMsg2 msg2 with
  | error e => rw [hm] at h; cases h
  | ok m =>
      rw [hm] at h
      dsimp only at h
      cases hts : u64be m.ts with
      | error e => rw [hts] at h; cases h
      | ok ts =>
          rw [hts] at h
          cases h
          exact ⟨m, ts, rfl, hts, rfl, rfl⟩

/-- After one msg1, the transcript and the MAC determine msg2 to the byte. -/
theorem transcript_inj {msg1 b b' t tag : Bytes} (h : transcript msg1 b = some (t, tag))
    (h' : transcript msg1 b' = some (t, tag)) : b = b' := by
  obtain ⟨m, ts, hm, hts, ht, htag⟩ := transcript_ok h
  obtain ⟨m', ts', hm', hts', ht', htag'⟩ := transcript_ok h'
  have he := decodeMsg2_ok.mp hm
  have he' := decodeMsg2_ok.mp hm'
  obtain ⟨hek, hkem, -⟩ := Offer.encode_ok.mp he
  obtain ⟨hek', hkem', -⟩ := Offer.encode_ok.mp he'
  have hrest := List.append_cancel_left (ht.symm.trans ht')
  obtain ⟨hekEq, hrest⟩ := List.append_inj hrest (hek.trans hek'.symm)
  obtain ⟨hkemEq, htsEq⟩ := List.append_inj hrest (hkem.trans hkem'.symm)
  subst htsEq
  have hmm : m = m' := by
    cases m
    cases m'
    exact congr (congr (congr (congrArg Offer.mk hekEq) hkemEq) (u64be_inj hts hts')) (htag.symm.trans htag')
  subst hmm
  exact Except.ok.inj (he.symm.trans he')

section

variable {A : Setting C} {c : Completion C} {a : Answer C} {coins : C.Coins} {m1 : Msg1} {m m' : Msg2}
  {d1 d2 d3 ss t d1' d2' d3' ss' t' : Bytes}

/-- One session key and one transcript hash: everything that went into them is the same. -/
theorem same_inputs (hc : Completed c.state c.msg2 c.msg3 c.result m d1 d2 d3 ss t)
    (ha : Answered a coins m1 m' d1' d2' d3' ss' t')
    (hch : ∀ b ∈ hashInputs C c.state.msg1Bytes c.msg2, A.hashed b) (hah : ∀ b ∈ hashInputs C a.msg1 a.msg2, A.hashed b)
    (hck : A.keyed (d1 ++ (d2 ++ (d3 ++ ss))) (h1 C c.state.msg1Bytes))
    (hak : A.keyed (d1' ++ (d2' ++ (d3' ++ ss'))) (h1 C a.msg1))
    (hsk : c.result.sk = a.state.sk) (ht : C.sha256 t = C.sha256 t') :
    c.state.msg1Bytes = a.msg1 ∧ c.msg2 = a.msg2 ∧ m = m' ∧ d1 = d1' ∧ d2 = d2' ∧ d3 = d3' := by
  rw [hashInputs, hc.transcript] at hch
  rw [hashInputs, ha.transcript] at hah
  rw [hc.result, ha.state] at hsk
  obtain ⟨hikm, hh1⟩ := A.hkdf_inj _ _ _ _ hck hak hsk
  have hmsg1 : c.state.msg1Bytes = a.msg1 := A.sha_inj _ _ (hch _ (by simp)) (hah _ (by simp)) hh1
  have htt : t = t' := A.sha_inj _ _ (hch _ (by simp)) (hah _ (by simp)) ht
  have htag : m.tag = m'.tag := by
    rw [← hc.macR, ← ha.macR, hc.result, ha.state, ht]
    exact congrArg (fun k => mac C k LABEL_R (C.sha256 t')) hsk
  have hmsg2 : c.msg2 = a.msg2 := by
    refine transcript_inj hc.transcript ?_
    rw [hmsg1, htt, htag]
    exact ha.transcript
  have hm : m = m' := by
    have hdec := hc.decoded
    rw [hmsg2, ha.msg2] at hdec
    exact (Except.ok.inj hdec).symm
  obtain ⟨h₁, hikm⟩ := List.append_inj hikm ((A.length_dh _ _ _ hc.dh1).trans (A.length_dh _ _ _ ha.dh1).symm)
  obtain ⟨h₂, hikm⟩ := List.append_inj hikm ((A.length_dh _ _ _ hc.dh2).trans (A.length_dh _ _ _ ha.dh2).symm)
  obtain ⟨h₃, -⟩ := List.append_inj hikm ((A.length_dh _ _ _ hc.dh3).trans (A.length_dh _ _ _ ha.dh3).symm)
  exact ⟨hmsg1, hmsg2, hm, h₁, h₂, h₃⟩

end

/-- An honest start. -/
structure BegunOk (A : Setting C) (s : InitiatorState C) : Prop where
  ik : A.identity s.ik
  ekI : A.ephemeral s.ekI
  msg1 : ∃ m1, decodeMsg1 s.msg1Bytes = .ok m1 ∧ m1.ekPub = C.pub s.ekI

/-- An honest completion, none of whose hashes collides. -/
structure CompletedOk (A : Setting C) (c : Completion C) (m : Msg2) (d1 d2 d3 ss t : Bytes) : Prop where
  begun : BegunOk A c.state
  completed : Completed c.state c.msg2 c.msg3 c.result m d1 d2 d3 ss t
  hashed : ∀ b ∈ hashInputs C c.state.msg1Bytes c.msg2, A.hashed b
  keyed : A.keyed (d1 ++ (d2 ++ (d3 ++ ss))) (h1 C c.state.msg1Bytes)

structure AnsweredOk (A : Setting C) (a : Answer C) (coins : C.Coins) (m1 : Msg1) (m : Msg2) (d1 d2 d3 ss t : Bytes) :
    Prop where
  ik : A.identity a.ik
  ekR : A.ephemeral a.ekR
  answered : Answered a coins m1 m d1 d2 d3 ss t
  hashed : ∀ b ∈ hashInputs C a.msg1 a.msg2, A.hashed b
  keyed : A.keyed (d1 ++ (d2 ++ (d3 ++ ss))) (h1 C a.msg1)

section

variable {A : Setting C} {c : Completion C} {a : Answer C} {coins : C.Coins} {m1 : Msg1} {m m' : Msg2}
  {d1 d2 d3 ss t d1' d2' d3' ss' t' : Bytes} {p : C.Priv}

/-- The two sides of one session key talk to each other, if one of them talks to an honest peer. -/
theorem matches_of_same (hc : CompletedOk A c m d1 d2 d3 ss t) (ha : AnsweredOk A a coins m1 m' d1' d2' d3' ss' t')
    (hsk : c.result.sk = a.state.sk) (ht : C.sha256 t = C.sha256 t') (hp : A.identity p) :
    Matches c a ∧ (c.state.peerIkPub = C.pub p → a.ik = p) ∧ (a.peerIkPub = C.pub p → c.state.ik = p) := by
  obtain ⟨hmsg1, hmsg2, hm, h₁, h₂, h₃⟩ :=
    same_inputs hc.completed ha.answered hc.hashed ha.hashed hc.keyed ha.keyed hsk ht
  obtain ⟨m1', hdec, hek⟩ := hc.begun.msg1
  have hm1 : m1 = m1' := by
    rw [hmsg1, ha.answered.decoded] at hdec
    exact Except.ok.inj hdec
  have hdh1 := hc.completed.dh1
  have hdh2 := hc.completed.dh2
  have hdh1' := ha.answered.dh1
  have hdh2' := ha.answered.dh2
  rw [hm1, hek, ← h₁] at hdh1'
  rw [← h₂] at hdh2'
  rw [hm, ha.answered.ekPub] at hdh2
  -- DH(IK_r, EK_i) and DH(EK_r, IK_i) are each of two honest keys, on one of the sides at least
  have hown : ∀ x y, A.identity x → A.ephemeral y → x ≠ y := fun x y hx hy he => A.apart x hx (he ▸ hy)
  have hside : c.state.peerIkPub = C.pub a.ik ∧ (c.state.peerIkPub = C.pub p → a.ik = p) := by
    have hI : c.state.peerIkPub = C.pub a.ik := by
      obtain ⟨he, -⟩ | ⟨-, he⟩ := A.dh_inj _ _ _ _ _ (Or.inl ha.ik) (Or.inr hc.begun.ekI) hdh1' hdh1
      · exact absurd he.symm (hown _ _ ha.ik hc.begun.ekI)
      · exact he
    refine ⟨hI, ?_⟩
    intro hpeerI
    rw [hpeerI] at hdh1
    obtain ⟨he, -⟩ | ⟨he, -⟩ := A.dh_inj _ _ _ _ _ (Or.inr hc.begun.ekI) (Or.inl hp) hdh1 hdh1'
    · exact absurd he (hown _ _ ha.ik hc.begun.ekI)
    · exact he
  have hside' : a.peerIkPub = C.pub c.state.ik ∧ (a.peerIkPub = C.pub p → c.state.ik = p) := by
    have hR : a.peerIkPub = C.pub c.state.ik := by
      obtain ⟨he, -⟩ | ⟨-, he⟩ := A.dh_inj _ _ _ _ _ (Or.inl hc.begun.ik) (Or.inr ha.ekR) hdh2 hdh2'
      · exact absurd he.symm (hown _ _ hc.begun.ik ha.ekR)
      · exact he
    refine ⟨hR, ?_⟩
    intro hpeerR
    rw [hpeerR] at hdh2'
    obtain ⟨he, -⟩ | ⟨he, -⟩ := A.dh_inj _ _ _ _ _ (Or.inr ha.ekR) (Or.inl hp) hdh2' hdh2
    · exact absurd he (hown _ _ hc.begun.ik ha.ekR)
    · exact he
  refine ⟨⟨hmsg1.symm, hmsg2.symm, hside'.1, hside.1, hsk.symm, ?_⟩, hside.2, hside'.2⟩
  rw [ha.answered.state, hc.completed.result, h₃]

/-- The key of a session with an honest peer is not known to the network: on the initiator's side. -/
theorem CompletedOk.secret (hc : CompletedOk A c m d1 d2 d3 ss t) (hp : A.identity p)
    (hpeer : c.state.peerIkPub = C.pub p) : ¬A.known c.result.sk := by
  intro hk
  have hdh1 := hc.completed.dh1
  rw [hc.completed.result] at hk
  rw [hpeer] at hdh1
  exact A.dh_secret _ _ _ (Or.inr hc.begun.ekI) (Or.inl hp) hdh1 (A.hkdf_secret _ _ _ _ _ hc.keyed hk).1

theorem AnsweredOk.secret (ha : AnsweredOk A a coins m1 m d1 d2 d3 ss t) (hp : A.identity p)
    (hpeer : a.peerIkPub = C.pub p) : ¬A.known a.state.sk := by
  intro hk
  have hdh2 := ha.answered.dh2
  rw [ha.answered.state] at hk
  rw [hpeer] at hdh2
  exact A.dh_secret _ _ _ (Or.inr ha.ekR) (Or.inl hp) hdh2 (A.hkdf_secret _ _ _ _ _ ha.keyed hk).2

end

/-! ## Runs -/

namespace World

structure Inv (A : Setting C) (w : World C) : Prop extends w.Agrees A where
  begun : ∀ s ∈ w.begun, BegunOk A s
  completed : ∀ c ∈ w.completed, ∃ m d1 d2 d3 ss t, CompletedOk A c m d1 d2 d3 ss t
  answered : ∀ a ∈ w.answers, ∃ coins m1 m d1 d2 d3 ss t, AnsweredOk A a coins m1 m d1 d2 d3 ss t

variable {A : Setting C} {w w' : World C}

/-- What was agreed stays agreed while sessions are added. -/
theorem Agrees.mono (h : w.Agrees A) (hc : w'.completed = w.completed) (hf : w'.finished = w.finished)
    (ha : ∀ a ∈ w.answers, a ∈ w'.answers) : w'.Agrees A where
  initiator := by
    rw [hc]
    intro c hmem
    refine ⟨(h.initiator c hmem).1, ?_⟩
    intro p hp hpeer
    obtain ⟨a, hmem', hm⟩ := (h.initiator c hmem).2 p hp hpeer
    exact ⟨a, ha a hmem', hm⟩
  responder := by
    rw [hc, hf]
    exact h.responder

theorem answers_append (w : World C) (e : Answer C × ResponderState) :
    answers { w with answered := w.answered ++ [e] } = w.answers ++ [e.1] := List.map_append

/-- Failed attempts change what is left of a state, not the answer. -/
theorem answers_set {j : Nat} {a : Answer C} {st st' : ResponderState} (h : w.answered[j]? = some (a, st)) :
    (w.answered.set j (a, st')).map Prod.fst = w.answers := by
  rw [List.map_set, answers]
  apply List.ext_getElem?
  intro i
  rw [List.getElem?_set]
  split
  · rename_i hij
    subst hij
    rw [List.getElem?_map, h, List.length_map]
    rw [if_pos (List.getElem?_eq_some_iff.mp h).1]
    rfl
  · rfl

theorem Inv.initiate {ik ekI : C.Priv} {peerIkPub tagKey : Bytes} {pq : C.KemKey} {now maxSkewMs : Time}
    (h : w.Inv A) (hi : Ideal A w (.initiate ik peerIkPub tagKey ekI pq now maxSkewMs)) :
    (w.act (.initiate ik peerIkPub tagKey ekI pq now maxSkewMs)).Inv A := by
  rw [act]
  split
  · exact h
  · rename_i msg1 s hs
    simp only [Handshake.initiate, bind_ok, exists_unit, wired_ok, pure, Except.pure, Except.ok.injEq,
      Prod.mk.injEq] at hs
    obtain ⟨-, tag, -, b, hb, -, rfl⟩ := hs
    refine ⟨h.toAgrees.mono rfl rfl fun _ => id, ?_, h.completed, h.answered⟩
    intro s hs
    obtain hs | hs := List.mem_append.mp hs
    · exact h.begun s hs
    · cases List.mem_singleton.mp hs
      exact ⟨hi.1, hi.2, _, decodeMsg1_ok.mpr hb, rfl⟩

theorem Inv.respond {ik ekR : C.Priv} {peerIkPub tagKey msg1 : Bytes} {coins : C.Coins} {now maxSkewMs : Time}
    (h : w.Inv A) (hi : Ideal A w (.respond ik peerIkPub tagKey msg1 ekR coins now maxSkewMs)) :
    (w.act (.respond ik peerIkPub tagKey msg1 ekR coins now maxSkewMs)).Inv A := by
  rw [act]
  split
  · exact h
  · rename_i msg2 st hs
    obtain ⟨hashed, keyed⟩ := hi.2.2 _ _ hs
    obtain ⟨m1, m, d1, d2, d3, ss, t, ha⟩ := respond_ok hs
    refine ⟨h.toAgrees.mono rfl rfl ?_, h.begun, h.completed, ?_⟩
    · intro a hmem
      rw [answers_append]
      exact List.mem_append_left _ hmem
    · intro a hmem
      rw [answers_append] at hmem
      obtain hmem | hmem := List.mem_append.mp hmem
      · exact h.answered a hmem
      · cases List.mem_singleton.mp hmem
        exact ⟨coins, m1, m, d1, d2, d3, ss, t, hi.1, hi.2.1, ha, hashed, keyed _ ha.ikm⟩

theorem label_ne (x y : Bytes) : LABEL_R ++ x ≠ LABEL_I ++ y := by
  intro h
  cases h

theorem Inv.complete {i : Nat} {msg2 : Bytes} {now : Time} (h : w.Inv A) (hi : Ideal A w (.complete i msg2 now)) :
    (w.act (.complete i msg2 now)).Inv A := by
  rw [act]
  split
  · exact h
  · rename_i s hs
    split
    · exact h
    · rename_i msg3 r hr
      obtain ⟨hashed, keyed, unforged⟩ := hi s msg3 r hs hr
      obtain ⟨m, d1, d2, d3, ss, t, hc⟩ := initiatorComplete_ok hr
      set c : Completion C := ⟨s, msg2, msg3, r⟩ with hcdef
      have hok : CompletedOk A c m d1 d2 d3 ss t :=
        ⟨h.begun s (List.mem_of_getElem? hs), hc, hashed, keyed _ hc.ikm⟩
      refine ⟨⟨?_, ?_⟩, h.begun, ?_, h.answered⟩
      · intro c' hmem
        obtain rfl | hmem := List.mem_cons.mp hmem
        · refine ⟨by rw [hcdef, hc.result], ?_⟩
          intro p hp hpeer
          obtain (⟨a, ha, t', ht', hsk, htext⟩ | ⟨_, _, _, _, _, htext⟩) | hk := unforged _ hc.transcript
          · obtain ⟨coins, m1, m', d1', d2', d3', ss', t₂, haok⟩ := h.answered a ha
            rw [haok.answered.transcript] at ht'
            cases ht'
            obtain ⟨hm, hown, -⟩ := matches_of_same hok haok hsk (List.append_cancel_left htext) hp
            exact ⟨a, ha, hown hpeer, hm⟩
          · exact absurd htext (label_ne _ _)
          · exact absurd hk (hok.secret hp hpeer)
        · exact h.initiator c' hmem
      · intro f hmem
        refine ⟨(h.responder f hmem).1, ?_⟩
        intro p hp hpeer
        obtain ⟨c', hc', hm⟩ := (h.responder f hmem).2 p hp hpeer
        exact ⟨c', List.mem_cons_of_mem _ hc', hm⟩
      · intro c' hmem
        obtain rfl | hmem := List.mem_cons.mp hmem
        · exact ⟨m, d1, d2, d3, ss, t, hok⟩
        · exact h.completed c' hmem

theorem Inv.finish {j : Nat} {msg3 : Bytes} (h : w.Inv A) (hi : Ideal A w (.finish j msg3))
    (hu : Untouched w (.finish j msg3)) : (w.act (.finish j msg3)).Inv A := by
  rw [act]
  split
  · exact h
  · rename_i a st ha
    have hmem : a ∈ w.answers := List.mem_map.mpr ⟨_, List.mem_of_getElem? ha, rfl⟩
    split
    · rename_i st' e _
      have hans : answers { w with answered := w.answered.set j (a, st') } = w.answers := answers_set ha
      refine ⟨h.toAgrees.mono rfl rfl fun _ hx => hans ▸ hx, h.begun, h.completed, ?_⟩
      rw [hans]
      exact h.answered
    · rename_i st' r hr
      obtain ⟨hproves, rfl⟩ := Gate.responderComplete_ok hr
      obtain rfl : st = a.state := by
        by_contra hne
        exact hu a st ha hne hproves
      set f : Finish C := ⟨a, msg3, Gate.resultOf C a.state⟩ with hf
      have hans : answers { w with answered := w.answered.set j (a, st'), finished := f :: w.finished } = w.answers :=
        answers_set ha
      refine ⟨⟨?_, ?_⟩, h.begun, h.completed, ?_⟩
      · intro c hc
        refine ⟨(h.initiator c hc).1, ?_⟩
        rw [hans]
        exact (h.initiator c hc).2
      · intro f' hf'
        obtain rfl | hf' := List.mem_cons.mp hf'
        · refine ⟨rfl, ?_⟩
          intro p hp hpeer
          obtain ⟨coins, m1, m', d1', d2', d3', ss', t', haok⟩ := h.answered a hmem
          obtain (⟨_, _, _, _, _, htext⟩ | ⟨c, hc, tm, htm, hsk, htext⟩) | hk := hi a a.state ha hproves
          · exact absurd htext.symm (label_ne _ _)
          · obtain ⟨m, d1, d2, d3, ss, t, hok⟩ := h.completed c hc
            rw [hok.completed.transcript] at htm
            cases htm
            have hh3 : C.sha256 (C.sha256 t' ++ m'.tag) = C.sha256 (C.sha256 t ++ m.tag) := by
              rw [← List.append_cancel_left htext, haok.answered.state]
            have hin := hok.hashed
            have hin' := haok.hashed
            rw [hashInputs, hok.completed.transcript] at hin
            rw [hashInputs, haok.answered.transcript] at hin'
            obtain ⟨ht, -⟩ := List.append_inj (A.sha_inj _ _ (hin' _ (by simp)) (hin _ (by simp)) hh3)
              (haok.answered.length.trans hok.completed.length.symm)
            obtain ⟨hm, -, hown⟩ := matches_of_same hok haok hsk.symm ht.symm hp
            refine ⟨c, hc, hown hpeer, hm, ?_⟩
            -- one key and one h3: the msg3 made there is the msg3 taken here
            have hmsg3 := hok.completed.msg3
            rw [← List.append_cancel_left htext, ← hsk] at hmsg3
            exact Except.ok.inj (hmsg3.symm.trans (decodeMsg3_ok.mp hproves))
          · exact absurd hk (haok.secret hp hpeer)
        · exact h.responder f' hf'
      · rw [hans]
        exact h.answered

theorem inv_start : (start : World C).Inv A where
  initiator c hc := by cases hc
  responder f hf := by cases hf
  begun s hs := by cases hs
  completed c hc := by cases hc
  answered a ha := by cases ha

end World

/-! ## One handshake, and a forged one -/

namespace Symbolic

theorem length_pad {b : Bytes} {n : Nat} (h : b.length ≤ n) : (pad b n).length = n := by
  rw [pad, List.length_append, List.length_replicate]
  omega

theorem dh_pub (x y : UInt8) : dh x (pub y) = pad (if x ≤ y then [1, x, y] else [1, y, x]) 32 := if_pos rfl

theorem dh_cases (x : UInt8) (q : Bytes) : (∃ y, q = pub y ∧ dh x q = pad (if x ≤ y then [1, x, y] else [1, y, x]) 32) ∨
    dh x q = pad [2, x] 32 := by
  by_cases hq : q = pub (q.headD 0)
  · exact Or.inl ⟨q.headD 0, hq, if_pos hq⟩
  · exact Or.inr (if_neg hq)

theorem dh_inj {x y z : UInt8} {q : Bytes} (h : dh x (pub y) = dh z q) : (z = x ∧ q = pub y) ∨ (z = y ∧ q = pub x) := by
  rw [dh_pub] at h
  obtain ⟨v, rfl, hz⟩ | hz := dh_cases z q
  · rw [hz] at h
    split at h <;> split at h <;> simp only [pad, List.cons_append, List.cons.injEq, true_and] at h <;>
      obtain ⟨rfl, rfl, -⟩ := h <;> simp
  · rw [hz] at h
    split at h <;> cases h

theorem dh_ne_zero (x : UInt8) (q : Bytes) : dh x q ≠ List.replicate 32 0 := by
  intro h
  obtain ⟨v, rfl, hz⟩ | hz := dh_cases x q
  · rw [hz] at h
    split at h <;> cases h
  · rw [hz] at h
    cases h

def msg2 : Bytes :=
  match respond opts.ik opts.peerIkPub opts.tagKey msg1 draws.ekR draws.coins draws.now MAX_SKEW_MS with
  | .ok (b, _) => b
  | .error _ => []

def ikm : Bytes := (responderIkm opts.ik opts.peerIkPub msg1 draws.ekR draws.coins).getD []

/-- Members 3 and 5 with one ephemeral key each; the network knows no key but the one of zeros. -/
def setting : Setting primitives where
  identity := fun (x : UInt8) => x = 3 ∨ x = 5
  ephemeral := fun (x : UInt8) => x = 7 ∨ x = 13
  known b := b = List.replicate 32 0
  hashed b := b ∈ hashInputs primitives msg1 msg2
  keyed a s := a = ikm ∧ s = h1 primitives msg1
  apart := by
    rintro (x : UInt8) (rfl | rfl) (h | h) <;> exact absurd h (by decide)
  length_dh := by
    rintro (x : UInt8) q d h
    cases h
    obtain ⟨v, rfl, hz⟩ | hz := dh_cases x q
    · rw [hz]
      split <;> exact length_pad (by simp)
    · rw [hz]
      exact length_pad (by simp)
  dh_inj := by
    rintro (x : UInt8) (y : UInt8) (z : UInt8) q d - - hx hz
    exact dh_inj (Option.some.inj (hx.trans hz.symm))
  dh_secret := by
    rintro (x : UInt8) (y : UInt8) d - - hd hk
    exact dh_ne_zero _ _ ((Option.some.inj hd).trans hk)
  sha_inj := by
    have hinj : ∀ a ∈ hashInputs primitives msg1 msg2, ∀ b ∈ hashInputs primitives msg1 msg2,
        digest 32 a = digest 32 b → a = b := by decide +kernel
    intro a b ha hb
    exact hinj a ha b hb
  hkdf_inj := by
    rintro a s b t ⟨ha, hs⟩ ⟨hb, ht⟩ -
    exact ⟨ha.trans hb.symm, hs.trans ht.symm⟩
  hkdf_secret := by
    intro dh1 dh2 dh3 ss s _ hk
    cases hk

abbrev Act := WorldAct primitives

def begin_ : Act := .initiate (3 : UInt8) (pub 5) opts.tagKey (13 : UInt8) (17 : UInt8) 0 MAX_SKEW_MS
def answer_ : Act := .respond opts.ik opts.peerIkPub opts.tagKey msg1 draws.ekR draws.coins draws.now MAX_SKEW_MS

def run (as : List Act) : World primitives := as.foldl World.act .start

theorem ideal_begin (w : World primitives) : Ideal setting w begin_ := ⟨Or.inl rfl, Or.inr rfl⟩

theorem ideal_answer (w : World primitives) : Ideal setting w answer_ := by
  refine ⟨Or.inr rfl, Or.inl rfl, ?_⟩
  intro m st h
  constructor
  · have hm : msg2 = m := by
      unfold msg2
      rw [h]
    rw [← hm]
    exact fun _ => id
  · intro k hk
    have hk' : k = ikm := by rw [ikm, hk, Option.getD_some]
    exact ⟨hk', rfl⟩

theorem ideal_finish {w : World primitives} {j : Nat} {frame : Bytes}
    (h : (w.answered[j]?.all fun e => decide (e.2.sk = List.replicate 32 0 ∨
      decodeMsg3 frame ≠ .ok (mac primitives e.2.sk LABEL_I e.2.h3))) = true) : Ideal setting w (.finish j frame) := by
  intro a st ha hproves
  rw [ha] at h
  obtain hz | hne := of_decide_eq_true h
  · exact Or.inr hz
  · exact absurd hproves hne

/-- The MAC that answers what 3 began is one that 5 made. -/
theorem ideal_complete : Ideal setting ((World.start.act begin_).act answer_) (.complete 0 msg2 0) := by
  have hcheck : ∀ s ∈ ((World.start.act begin_).act answer_).begun[0]?, ∀ e ∈ (initiatorComplete s msg2 0).toOption,
      (∀ b ∈ hashInputs primitives s.msg1Bytes msg2, b ∈ hashInputs primitives msg1 msg2) ∧
      s.ikm msg2 = some ikm ∧ s.msg1Bytes = msg1 ∧
      ∀ t ∈ transcript s.msg1Bytes msg2, ∃ a ∈ ((World.start.act begin_).act answer_).answers,
        transcript a.msg1 a.msg2 = some t ∧ e.2.sk = a.state.sk := by decide +kernel
  intro s m r hs hr
  obtain ⟨hhash, hikm, hmsg1, hmade⟩ := hcheck s hs (m, r) (by rw [hr]; rfl)
  refine ⟨hhash, ?_, ?_⟩
  · intro k hk
    exact ⟨Option.some.inj (hk.symm.trans hikm), congrArg (h1 primitives) hmsg1⟩
  · intro t ht
    obtain ⟨a, ha, hta, hsk⟩ := hmade t ht
    exact Or.inl (Or.inl ⟨a, ha, t, hta, hsk, rfl⟩)

/-- The MAC that lets 3 in is one that 3 made. -/
theorem ideal_right : Ideal setting (((World.start.act begin_).act answer_).act (.complete 0 msg2 0)) (.finish 0 right) ∧
    Untouched (((World.start.act begin_).act answer_).act (.complete 0 msg2 0)) (.finish 0 right) := by
  have hcheck : ∀ e ∈ (((World.start.act begin_).act answer_).act (.complete 0 msg2 0)).answered[0]?, e.2 = e.1.state ∧
      ∃ c ∈ (((World.start.act begin_).act answer_).act (.complete 0 msg2 0)).completed,
        ∃ t ∈ (transcript c.state.msg1Bytes c.msg2).toList, e.2.sk = c.result.sk ∧
          e.2.h3 = primitives.sha256 (primitives.sha256 t.1 ++ t.2) := by decide +kernel
  constructor
  · intro a st ha _
    obtain ⟨-, c, hc, t, ht, hsk, hh3⟩ := hcheck (a, st) ha
    refine Or.inl (Or.inr ⟨c, hc, t, Option.mem_toList.mp ht, hsk, ?_⟩)
    rw [← hh3]
  · intro a st ha hne
    exact absurd (hcheck (a, st) ha).1 hne

end Symbolic

end EncedoChat.Handshake
