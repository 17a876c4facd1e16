import EncedoChat.Handshake.Wire
import EncedoChat.Lib.Run

/-!
# The handshake machines

`initiate`, `initiatorComplete`, `respond` and `responderComplete` of `eh2/handshake.ts`. Fresh keys, coins and
clock readings are arguments of the call that makes them; logging is left out.
-/

namespace EncedoChat.Handshake

/-- What the handshake calls: X25519, ML-KEM, SHA-256, HKDF and HMAC. `none` stands for a throw. -/
structure Primitives where
  Priv : Type
  KemKey : Type
  Coins : Type
  pub : Priv → Bytes
  dh : Priv → Bytes → Option Bytes
  kemPub : KemKey → Bytes
  encapsulate : Bytes → Coins → Option (Bytes × Bytes)
  decapsulate : KemKey → Bytes → Option Bytes
  sha256 : Bytes → Bytes
  /-- `hkdfBits(ikm, salt, info, 32)` -/
  hkdf : Bytes → Bytes → Bytes → Bytes
  hmac : Bytes → Bytes → Bytes

variable {C : Primitives}

/-- `encedo-handshake-v2` -/
def SK_INFO : Bytes := [101, 110, 99, 101, 100, 111, 45, 104, 97, 110, 100, 115, 104, 97, 107, 101, 45, 118, 50]
/-- `responder` -/
def LABEL_R : Bytes := [114, 101, 115, 112, 111, 110, 100, 101, 114]
/-- `initiator` -/
def LABEL_I : Bytes := [105, 110, 105, 116, 105, 97, 116, 111, 114]

def MAX_SKEW_MS : Time := 5 * 60000

inductive Role where
  | initiator | responder
  deriving DecidableEq

inductive HandshakeError where
  | wire (e : WireError)
  /-- a primitive threw -/
  | thrown
  | peerIk
  | tagKey
  | skew (what : String) (off maxSkewMs : Time)
  | secondWindow
  | notTheContact
  | macR
  | macI
  /-- a frame of another type than the side waits for -/
  | expected (who what : String) (got : Option UInt8)
  deriving DecidableEq

def HandshakeError.message : HandshakeError → Option String
  | .wire e => some e.message
  | .thrown => none
  | .peerIk => some "EH-2: peer IK public key must be 32 B"
  | .tagKey => some "EH-2: initiator tag key must be 32 B"
  | .skew what off maxSkewMs =>
    some ("EH-2: " ++ what ++ " timestamp outside the +/-" ++ toString (maxSkewMs / 60000) ++ " min window (skew " ++
      toString off ++ " ms)")
  | .secondWindow => some "EH-2: initiator tag is our own identity: a second window, not the contact"
  | .notTheContact => some "EH-2: initiator tag does not match the contact"
  | .macR =>
    some "EH-2: mac_r does not verify — responder is not the expected peer (or the transcript was tampered with)"
  | .macI => some "EH-2: mac_i does not verify — initiator is not authenticated, drop the session"
  | .expected who what got =>
    some ("EH-2: " ++ who ++ " expected " ++ what ++ ", got frame type 0x" ++ (got.map hexOf).getD "undefined")

def wired {α : Type} : Except WireError α → Except HandshakeError α := Except.mapError .wire

def call {α : Type} (x : Option α) : Except HandshakeError α := x.elim (.error .thrown) .ok

/-! ## Helpers -/

def initiatorTag (C : Primitives) (tagKey ikPub : Bytes) : Except HandshakeError Bytes := do
  refuse (tagKey.length ≠ 32) .tagKey
  return C.hmac tagKey ikPub

def checkSkew (ts now : Time) (what : String) (maxSkewMs : Time) : Except HandshakeError Unit :=
  refuse (maxSkewMs < max (now - ts) (ts - now)) (.skew what (now - ts) maxSkewMs)

def deriveSK (C : Primitives) (dh1 dh2 dh3 ss h1 : Bytes) : Bytes := C.hkdf (dh1 ++ (dh2 ++ (dh3 ++ ss))) h1 SK_INFO

def mac (C : Primitives) (sk label transcript : Bytes) : Bytes := C.hmac sk (label ++ transcript)

def macVerify (C : Primitives) (sk label transcript tag : Bytes) : Bool := decide (mac C sk label transcript = tag)

/-- `b.fill(0)` -/
def wipe (b : Bytes) : Bytes := b.map fun _ => 0

def h1 (C : Primitives) (msg1 : Bytes) : Bytes := C.sha256 msg1

def h2Partial (C : Primitives) (msg1 ekRPub pqCt : Bytes) (tsR : Time) : Except WireError Bytes := do
  fixed "h2_partial.ekRPub" ekRPub X25519_PUB
  fixed "h2_partial.pqCt" pqCt MLKEM768_CT
  let ts ← u64be tsR
  return C.sha256 (msg1 ++ (ekRPub ++ (pqCt ++ ts)))

def h3 (C : Primitives) (h2p macR : Bytes) : Except WireError Bytes := do
  fixed "h3.h2partial" h2p 32
  fixed "h3.macR" macR MAC
  return C.sha256 (h2p ++ macR)

structure HandshakeResult (C : Primitives) where
  role : Role
  sk : Bytes
  ekSelf : Option C.Priv
  ekPeerPub : Bytes
  firstStepIkm : Bytes

/-! ## Initiator -/

structure InitiatorState (C : Primitives) where
  ik : C.Priv
  peerIkPub : Bytes
  ekI : C.Priv
  pq : C.KemKey
  msg1Bytes : Bytes
  maxSkewMs : Time

def initiate (ik : C.Priv) (peerIkPub tagKey : Bytes) (ekI : C.Priv) (pq : C.KemKey) (now : Time)
    (maxSkewMs : Time) : Except HandshakeError (Bytes × InitiatorState C) := do
  refuse (peerIkPub.length ≠ 32) .peerIk
  let tag ← initiatorTag C tagKey (C.pub ik)
  let msg1 ← wired (encodeMsg1 ⟨C.pub ekI, C.kemPub pq, now, tag⟩)
  return (msg1, ⟨ik, peerIkPub, ekI, pq, msg1, maxSkewMs⟩)

def initiatorComplete (s : InitiatorState C) (msg2Bytes : Bytes) (now : Time) :
    Except HandshakeError (Bytes × HandshakeResult C) := do
  let msg2 ← wired (decodeMsg2 msg2Bytes)
  checkSkew msg2.ts now "msg2" s.maxSkewMs
  let dh1 ← call (C.dh s.ekI s.peerIkPub)
  let dh2 ← call (C.dh s.ik msg2.ekPub)
  let dh3 ← call (C.dh s.ekI msg2.ekPub)
  let ss ← call (C.decapsulate s.pq msg2.kem)
  let sk := deriveSK C dh1 dh2 dh3 ss (h1 C s.msg1Bytes)
  let h2p ← wired (h2Partial C s.msg1Bytes msg2.ekPub msg2.kem msg2.ts)
  refuse (macVerify C sk LABEL_R h2p msg2.tag = false) .macR
  let h3 ← wired (h3 C h2p msg2.tag)
  let msg3 ← wired (encodeMsg3 (mac C sk LABEL_I h3))
  return (msg3, ⟨.initiator, sk, some s.ekI, msg2.ekPub, dh3⟩)

/-! ## Responder -/

structure ResponderState where
  sk : Bytes
  h3 : Bytes
  ekPeerPub : Bytes
  firstStepIkm : Bytes
  deriving DecidableEq

def respond (ik : C.Priv) (peerIkPub tagKey msg1Bytes : Bytes) (ekR : C.Priv) (coins : C.Coins) (now : Time)
    (maxSkewMs : Time) : Except HandshakeError (Bytes × ResponderState) := do
  refuse (peerIkPub.length ≠ 32) .peerIk
  let msg1 ← wired (decodeMsg1 msg1Bytes)
  checkSkew msg1.ts now "msg1" maxSkewMs
  let tag ← initiatorTag C tagKey peerIkPub
  let own ← initiatorTag C tagKey (C.pub ik)
  refuse (msg1.tag ≠ tag) (if msg1.tag = own then .secondWindow else .notTheContact)
  let (ct, ss) ← call (C.encapsulate msg1.kem coins)
  let dh1 ← call (C.dh ik msg1.ekPub)
  let dh2 ← call (C.dh ekR peerIkPub)
  let dh3 ← call (C.dh ekR msg1.ekPub)
  let sk := deriveSK C dh1 dh2 dh3 ss (h1 C msg1Bytes)
  let h2p ← wired (h2Partial C msg1Bytes (C.pub ekR) ct now)
  let macR := mac C sk LABEL_R h2p
  let msg2 ← wired (encodeMsg2 ⟨C.pub ekR, ct, now, macR⟩)
  let h3 ← wired (h3 C h2p macR)
  return (msg2, ⟨sk, h3, msg1.ekPub, dh3⟩)

/-- What is left of the state, and the result: a MAC that does not verify wipes the secrets in place. -/
def responderComplete (C : Primitives) (s : ResponderState) (msg3Bytes : Bytes) :
    ResponderState × Except HandshakeError (HandshakeResult C) :=
  match decodeMsg3 msg3Bytes with
  | .error e => (s, .error (.wire e))
  | .ok macI =>
    if macVerify C s.sk LABEL_I s.h3 macI = false then
      ({ s with sk := wipe s.sk, firstStepIkm := wipe s.firstStepIkm }, .error .macI)
    else (s, .ok ⟨.responder, s.sk, none, s.ekPeerPub, s.firstStepIkm⟩)

/-! ## Symbolic primitives -/

namespace Symbolic

/-- A string that starts with the bytes given. -/
def pad (b : Bytes) (n : Nat) : Bytes := b ++ List.replicate (n - b.length) 0

/-- A polynomial over the input. -/
def digest (n : Nat) (b : Bytes) : Bytes := Bytes.ofNat n (Bytes.toNat (1 :: b) % (2 ^ (8 * n) - 189))

def pub (x : UInt8) : Bytes := pad [x] 32

/-- The unordered pair of two keys, or what comes of a string that is nobody's key. -/
def dh (x : UInt8) (q : Bytes) : Bytes :=
  if q = pub (q.headD 0) then pad (if x ≤ q.headD 0 then [1, x, q.headD 0] else [1, q.headD 0, x]) 32 else pad [2, x] 32

/-- Keys are named by a byte; the secret of a ciphertext is both names. -/
def primitives : Primitives where
  Priv := UInt8
  KemKey := UInt8
  Coins := UInt8
  pub := pub
  dh x q := some (dh x q)
  kemPub := fun (x : UInt8) => pad [x] MLKEM768_PK
  encapsulate := fun q (m : UInt8) => some (pad [m] MLKEM768_CT, pad [3, q.headD 0, m] 32)
  decapsulate := fun (x : UInt8) ct => some (pad [3, x, ct.headD 0] 32)
  sha256 := digest 32
  hkdf ikm salt info := 1 :: digest 31 (info ++ (salt ++ ikm))
  hmac k x := digest 32 (k ++ x)

end Symbolic

end EncedoChat.Handshake

/-!
# The msg3 gate

The responder of `startHandshake` in `eh2/establish.ts`, fed one frame after another, and what has to be shown to
it before it calls its peer authenticated.
-/

namespace EncedoChat.Handshake

variable {C : Primitives}

structure StartOpts (C : Primitives) where
  ik : C.Priv
  peerIkPub : Bytes
  tagKey : Bytes

/-- What a call of `respond` draws, and the clock. -/
structure Draws (C : Primitives) where
  ekR : C.Priv
  coins : C.Coins
  now : Time

/-- The promise of a session: it is settled once. -/
inductive Promised (C : Primitives) where
  | pending
  | resolved (r : HandshakeResult C)
  | rejected

def Promised.resolve (r : HandshakeResult C) : Promised C → Promised C
  | .pending => .resolved r
  | p => p

def Promised.reject : Promised C → Promised C
  | .pending => .rejected
  | p => p

structure Responder (C : Primitives) where
  pending : Option ResponderState
  authenticated : Bool
  session : Promised C

namespace Responder

def start : Responder C := ⟨none, false, .pending⟩

def feed (o : StartOpts C) (s : Responder C) (d : Draws C) (frame : Bytes) :
    Responder C × Except HandshakeError (Option Bytes) :=
  match s.pending with
  | none =>
    if frame.head? ≠ some T_MSG1 then
      ({ s with session := s.session.reject }, .error (.expected "responder" "msg1" frame.head?))
    else
      match respond o.ik o.peerIkPub o.tagKey frame d.ekR d.coins d.now MAX_SKEW_MS with
      | .error e => ({ s with session := s.session.reject }, .error e)
      | .ok (msg2, st) => ({ s with pending := some st }, .ok (some msg2))
  | some st =>
    if frame.head? ≠ some T_MSG3 then
      ({ s with session := s.session.reject }, .error (.expected "responder" "msg3" frame.head?))
    else
      match responderComplete C st frame with
      | (st', .error e) => ({ s with pending := some st', session := s.session.reject }, .error e)
      | (_, .ok r) => (⟨none, true, s.session.resolve r⟩, .ok none)

end Responder

/-- A responder with all that was fed to it, what it derived from each msg1 it answered, and the msg3 it took. -/
structure Gate (C : Primitives) where
  responder : Responder C
  fed : List Bytes
  derived : List ResponderState
  taken : List Bytes

namespace Gate

def start : Gate C := ⟨.start, [], [], []⟩

def act (o : StartOpts C) (g : Gate C) (e : Draws C × Bytes) : Gate C :=
  let (r, out) := g.responder.feed o e.1 e.2
  { responder := r
    fed := e.2 :: g.fed
    derived := if g.responder.pending.isNone then r.pending.toList ++ g.derived else g.derived
    taken := match out with
      | .ok none => e.2 :: g.taken
      | _ => g.taken }

/-- The frame is a msg3 under the session key of the state. -/
def Proves (C : Primitives) (st : ResponderState) (frame : Bytes) : Prop :=
  decodeMsg3 frame = .ok (mac C st.sk LABEL_I st.h3)

def resultOf (C : Primitives) (st : ResponderState) : HandshakeResult C :=
  ⟨.responder, st.sk, none, st.ekPeerPub, st.firstStepIkm⟩

/-- Nothing is taken, reported or yielded without a msg3 under a session key that the responder derived. -/
structure Sound (g : Gate C) : Prop where
  taken : ∀ f ∈ g.taken, ∃ st ∈ g.derived, Proves C st f
  authenticated : g.responder.authenticated = true → ∃ f ∈ g.fed, ∃ st ∈ g.derived, Proves C st f
  session : ∀ r, g.responder.session = .resolved r → ∃ f ∈ g.fed, ∃ st ∈ g.derived, Proves C st f ∧ r = resultOf C st

/-- The frame is no msg3 under the key that a failed attempt left behind. -/
def Untouched (g : Gate C) (e : Draws C × Bytes) : Prop :=
  ∀ st, g.responder.pending = some st → st ∉ g.derived → ¬Proves C st e.2

variable {o : StartOpts C} {g : Gate C} {e : Draws C × Bytes}

theorem responderComplete_ok {st st' : ResponderState} {frame : Bytes} {r : HandshakeResult C}
    (h : responderComplete C st frame = (st', .ok r)) : Proves C st frame ∧ r = resultOf C st := by
  unfold responderComplete at h
  cases hm : decodeMsg3 frame with
  | error err => rw [hm] at h; cases h
  | ok macI =>
      rw [hm] at h
      dsimp only at h
      split at h
      · cases h
      · rename_i hv
        cases h
        refine ⟨?_, rfl⟩
        have hmac : mac C st.sk LABEL_I st.h3 = macI := of_decide_eq_true ((Bool.not_eq_false _).mp hv)
        rw [Proves, hm, hmac]

/-- A frame is taken as msg3 under the key of the pending state; or it is not, and nothing is settled but the
refusal. -/
theorem feed_cases (s : Responder C) (d : Draws C) (frame : Bytes) :
    (∃ st, s.pending = some st ∧ Proves C st frame ∧
      s.feed o d frame = (⟨none, true, s.session.resolve (resultOf C st)⟩, .ok none)) ∨
    ((s.feed o d frame).1.authenticated = s.authenticated ∧ (s.feed o d frame).2 ≠ .ok none ∧
      ((s.feed o d frame).1.session = s.session ∨ (s.feed o d frame).1.session = s.session.reject)) := by
  unfold Responder.feed
  cases hp : s.pending with
  | none =>
      right
      dsimp only
      split
      · exact ⟨rfl, by simp, Or.inr rfl⟩
      · split
        · exact ⟨rfl, by simp, Or.inr rfl⟩
        · exact ⟨rfl, by simp, Or.inl rfl⟩
  | some st =>
      dsimp only
      split
      · exact Or.inr ⟨rfl, by simp, Or.inr rfl⟩
      · split
        · exact Or.inr ⟨rfl, by simp, Or.inr rfl⟩
        · rename_i r hc
          obtain ⟨hproves, rfl⟩ := responderComplete_ok hc
          exact Or.inl ⟨st, rfl, hproves, rfl⟩

theorem resolved_of_reject {p : Promised C} {r : HandshakeResult C} (h : p.reject = .resolved r) :
    p = .resolved r := by
  cases p with
  | pending => cases h
  | resolved _ => exact h
  | rejected => cases h

theorem mem_derived_act {st : ResponderState} (h : st ∈ g.derived) : st ∈ (g.act o e).derived := by
  rw [act]
  dsimp only
  split
  · exact List.mem_append_right _ h
  · exact h

theorem mem_fed_act {f : Bytes} (h : f ∈ g.fed) : f ∈ (g.act o e).fed := List.mem_cons_of_mem _ h

/-- What has been shown stays shown. -/
theorem shown_act {P : Bytes → ResponderState → Prop} (h : ∃ f ∈ g.fed, ∃ st ∈ g.derived, P f st) :
    ∃ f ∈ (g.act o e).fed, ∃ st ∈ (g.act o e).derived, P f st := by
  obtain ⟨f, hf, st, hst, hp⟩ := h
  exact ⟨f, mem_fed_act hf, st, mem_derived_act hst, hp⟩

theorem sound_start : (start : Gate C).Sound where
  taken f hf := by cases hf
  authenticated h := by cases h
  session r h := by cases h

theorem Sound.act (h : g.Sound) (hu : g.Untouched e) : (g.act o e).Sound := by
  obtain ⟨st, hp, hproves, hfeed⟩ | ⟨hauth, hout, hsession⟩ := feed_cases (o := o) g.responder e.1 e.2
  · have hst : st ∈ g.derived := by
      by_contra hst
      exact hu st hp hst hproves
    have hshown : e.2 ∈ (g.act o e).fed := List.mem_cons_self
    constructor
    · intro f hf
      simp only [Gate.act, hfeed, List.mem_cons] at hf
      obtain rfl | hf := hf
      · exact ⟨st, mem_derived_act hst, hproves⟩
      · obtain ⟨st', hst', hp'⟩ := h.taken f hf
        exact ⟨st', mem_derived_act hst', hp'⟩
    · intro _
      exact ⟨e.2, hshown, st, mem_derived_act hst, hproves⟩
    · intro r hr
      simp only [Gate.act, hfeed] at hr
      cases hs : g.responder.session with
      | pending =>
          rw [hs] at hr
          cases hr
          exact ⟨e.2, hshown, st, mem_derived_act hst, hproves, rfl⟩
      | resolved r' =>
          rw [hs] at hr
          cases hr
          exact shown_act (h.session _ hs)
      | rejected => rw [hs] at hr; cases hr
  · constructor
    · intro f hf
      have htaken : (g.act o e).taken = g.taken := by
        simp only [Gate.act]
      obtain ⟨st', hst', hp'⟩ := h.taken f (htaken ▸ hf)
      exact ⟨st', mem_derived_act hst', hp'⟩
    · intro ha
      exact shown_act (h.authenticated (hauth.symm.trans ha))
    · intro r hr
      apply shown_act (h.session r ?_)
      obtain hs | hs := hsession
      · exact hs.symm.trans hr
      · exact resolved_of_reject (hs.symm.trans hr)

/-- As long as no frame is a msg3 under the key that a failed attempt left behind, whatever else is fed: the gate
holds after every frame. -/
theorem gate_sound (o : StartOpts C) (g : Gate C) (h : Reach (act o) Untouched start g) : g.Sound :=
  h.invariant sound_start fun _ _ hs hu => hs.act hu

end Gate

/-! ## A forged msg3 -/

namespace Symbolic

/-- Member 5 waits for member 3. -/
def opts : StartOpts primitives := ⟨(5 : UInt8), pub 3, List.replicate 32 1⟩
def draws : Draws primitives := ⟨(7 : UInt8), (11 : UInt8), 0⟩

/-- The frame that an honest start of member 3 sends. -/
def msg1 : Bytes :=
  match initiate (C := primitives) (3 : UInt8) (pub 5) opts.tagKey (13 : UInt8) (17 : UInt8) 0 MAX_SKEW_MS with
  | .ok (b, _) => b
  | .error _ => []

/-- What the responder derives from it; and the two msg3 that can be made: under that key, and under no key. -/
def derived : Option ResponderState :=
  match respond opts.ik opts.peerIkPub opts.tagKey msg1 draws.ekR draws.coins draws.now MAX_SKEW_MS with
  | .ok (_, st) => some st
  | .error _ => none

def msg3Under (sk : ResponderState → Bytes) : Bytes :=
  (derived.map fun st => [T_MSG3, EH2_VERSION] ++ mac primitives (sk st) LABEL_I st.h3).getD []

def wrong : Bytes := [T_MSG3, EH2_VERSION] ++ List.replicate 32 0
def forged : Bytes := msg3Under fun _ => List.replicate 32 0
def right : Bytes := msg3Under ResponderState.sk

def fedAll (fs : List Bytes) : Gate primitives := (fs.map fun f => (draws, f)).foldl (Gate.act opts) .start

theorem reach_fedAll {ok : Gate primitives → Draws primitives × Bytes → Prop} {fs : List Bytes}
    (h : Admits (Gate.act opts) ok .start (fs.map fun f => (draws, f))) : Reach (Gate.act opts) ok .start (fedAll fs) :=
  h.reach .start

/-- After one wrong msg3 the key is known to everybody, and a msg3 under it is taken. -/
theorem forged_is_taken : Reach (Gate.act opts) (fun _ _ => True) .start (fedAll [msg1, wrong, forged]) ∧
    (fedAll [msg1, wrong, forged]).responder.authenticated = true ∧ ¬(fedAll [msg1, wrong, forged]).Sound := by
  refine ⟨?_, by decide +kernel, ?_⟩
  · exact reach_fedAll (.of_forall (fun _ _ => trivial) _ _)
  · intro h
    have htaken : forged ∈ (fedAll [msg1, wrong, forged]).taken := by decide +kernel
    have hnone : ∀ st ∈ (fedAll [msg1, wrong, forged]).derived, decodeMsg3 forged ≠
        .ok (mac primitives st.sk LABEL_I st.h3) := by decide +kernel
    obtain ⟨st, hst, hproves⟩ := h.taken _ htaken
    exact hnone st hst hproves

theorem untouched_of_all {g : Gate primitives} {e : Draws primitives × Bytes}
    (h : (g.responder.pending.all fun st => decide (st ∈ g.derived)) = true) : g.Untouched e := by
  intro st hst hnot
  rw [hst] at h
  exact absurd (of_decide_eq_true h) hnot

theorem right_is_taken : (fedAll [msg1, right]).Sound ∧ (fedAll [msg1, right]).responder.authenticated = true := by
  refine ⟨Gate.gate_sound opts _ ?_, by decide +kernel⟩
  apply reach_fedAll
  exact ⟨untouched_of_all (by decide +kernel), untouched_of_all (by decide +kernel), trivial⟩

end Symbolic

end EncedoChat.Handshake
