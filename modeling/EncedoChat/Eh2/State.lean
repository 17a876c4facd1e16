import EncedoChat.Lib.Aead
import EncedoChat.Lib.KeyChain
import EncedoChat.Eh2.Skipped

/-!
# The hybrid double ratchet

`ratchetFrom`, `encrypt` and `decrypt` of `eh2/ratchet.ts`, over a suite of primitives. Random draws
and clock readings are arguments of the call that makes them.
-/

namespace EncedoChat.Eh2

/-! ## The primitives -/

/-- The input keying material of a root step together with its label: `RK_INFO` over the X25519
output, or `RK_PQ_INFO` over the X25519 output with the ML-KEM secret behind it. -/
inductive RootIkm (Shared Ss : Type) where
  | classical (dh : Shared)
  | hybrid (dh : Shared) (ss : Ss)
  deriving DecidableEq

def RootIkm.dh {Shared Ss : Type} : RootIkm Shared Ss → Shared
  | .classical d => d
  | .hybrid d _ => d

/-- What the ratchet calls: X25519, HKDF and HMAC, ML-KEM, AES-GCM. `none` stands for a throw. -/
structure Suite where
  Key : Type
  Priv : Type
  Shared : Type
  KemKey : Type
  Ss : Type
  Coins : Type
  Nonce : Type
  [decKey : DecidableEq Key]
  [decNonce : DecidableEq Nonce]
  pub : Priv → Pub
  dh : Priv → Pub → Option Shared
  kemPub : KemKey → Bytes
  encapsulate : Bytes → Coins → Option (Bytes × Ss)
  decapsulate : KemKey → Bytes → Option Ss
  /-- `dhStep(rk, ikm, info)`: the next root key and the chain key. -/
  dhStep : Key → RootIkm Shared Ss → Key × Key
  chain : KeyChain Key
  /-- `aeadNonce(mk, n)`, the counter as four bytes. -/
  aeadNonce : Key → Bytes → Nonce
  /-- key, nonce, associated data, plaintext. -/
  aeadSeal : Key → Nonce → Bytes → Bytes → Bytes

attribute [instance] Suite.decKey Suite.decNonce

inductive Role where
  | initiator
  | responder
  deriving DecidableEq

def Role.other : Role → Role
  | .initiator => .responder
  | .responder => .initiator

@[simp] theorem Role.other_other (X : Role) : X.other.other = X := by cases X <;> rfl

@[simp] theorem Role.other_ne (X : Role) : X.other ≠ X := by cases X <;> decide

@[simp] theorem Role.ne_other (X : Role) : X ≠ X.other := by cases X <;> decide

theorem Role.eq_or_eq_other (X Y : Role) : X = Y ∨ X = Y.other := by cases X <;> cases Y <;> simp [other]

structure Opts where
  maxSkip : Nat := 1000
  maxChains : Nat := 5
  ttl : Time := 24 * 60 * 60 * 1000
  pqEvery : Nat := 4
  pqEveryMs : Time := 30 * 60000

variable {S : Suite}

/-- What opens a frame: key, nonce, associated data, ciphertext. -/
abbrev Open (S : Suite) := S.Key → S.Nonce → Bytes → Bytes → Option Bytes

/-! ## The state -/

structure Ratchet (S : Suite) where
  rk : S.Key
  dhSelf : Option S.Priv
  dhPeerPub : Pub
  ckSend : Option S.Key
  ckRecv : Option S.Key
  nSend : Nat
  nRecv : Nat
  pn : Nat
  /-- Set when the next send must open a new sending chain with a fresh key. -/
  stepBeforeSend : Bool
  pqKey : Option S.KemKey
  pendingSs : Option S.Ss
  pendingCt : Option Bytes
  ctInFlight : Option Bytes
  seenPeerPqPub : Option Bytes
  stepsSincePq : Nat
  lastPqAt : Time
  pqStepsDone : Nat
  skipped : SkippedKeys S.Key

structure HandshakeResult (S : Suite) where
  role : Role
  sk : S.Key
  /-- The initiator's EK; the responder has none. -/
  ekSelf : Option S.Priv
  ekPeerPub : Pub
  firstStepIkm : S.Shared

def ratchetFrom (hs : HandshakeResult S) (now : Time) : Ratchet S :=
  let first := S.dhStep hs.sk (.classical hs.firstStepIkm)
  { rk := first.1
    dhSelf := hs.ekSelf
    dhPeerPub := hs.ekPeerPub
    ckSend := if hs.role = .initiator then some first.2 else none
    ckRecv := if hs.role = .initiator then none else some first.2
    nSend := 0, nRecv := 0, pn := 0
    stepBeforeSend := hs.role = .responder
    pqKey := none, pendingSs := none, pendingCt := none, ctInFlight := none, seenPeerPqPub := none
    stepsSincePq := 0, lastPqAt := now, pqStepsDone := 0
    skipped := .empty }

/-! ## Sending -/

/-- The draws and clock readings of one `encrypt`. -/
structure EncryptDraws (S : Suite) where
  newDh : S.Priv
  kemKey : S.KemKey
  /-- read when a hybrid step is made -/
  pqAt : Time
  /-- read when the cadence is checked -/
  cadenceAt : Time

/-- A frame that was sealed, and by whom. -/
structure Sealed (S : Suite) extends Box S.Key S.Nonce where
  sender : Role
  deriving DecidableEq

def Sealed.frame (e : Sealed S) : Bytes := e.aad ++ e.ct

namespace Ratchet

def rootIkm (s : Ratchet S) (dh : S.Shared) : RootIkm S.Shared S.Ss :=
  match s.pendingSs with
  | some ss => .hybrid dh ss
  | none => .classical dh

/-- The peer's key was answered: its secret has gone into the root, the ciphertext rides from now on. -/
def countStep (s : Ratchet S) (pqAt : Time) : Ratchet S :=
  match s.pendingSs with
  | some _ => { s with
      pendingSs := none, ctInFlight := s.pendingCt, pendingCt := none, stepsSincePq := 0,
      lastPqAt := pqAt, pqStepsDone := s.pqStepsDone + 1 }
  | none => { s with stepsSincePq := s.stepsSincePq + 1 }

/-- Time for a fresh encapsulation key of our own? Only when none is outstanding. -/
def issuePqKey (o : Opts) (s : Ratchet S) (kemKey : S.KemKey) (now : Time) : Ratchet S :=
  if s.pqKey.isNone && (decide (o.pqEvery ≤ s.stepsSincePq) || decide (o.pqEveryMs ≤ now - s.lastPqAt))
  then { s with pqKey := some kemKey } else s

/-- The DH step of `encrypt`, after `dhSelf.dh(dhPeerPub)` gave `dh`. -/
def openSendChain (o : Opts) (s : Ratchet S) (d : EncryptDraws S) (dh : S.Shared) : Ratchet S :=
  let step := S.dhStep s.rk (s.rootIkm dh)
  issuePqKey o
    { s.countStep d.pqAt with
      dhSelf := some d.newDh, rk := step.1, ckSend := some step.2, pn := s.nSend, nSend := 0,
      stepBeforeSend := false }
    d.kemKey d.cadenceAt

def nextHeader (s : Ratchet S) (self : S.Priv) : Header :=
  ⟨S.pub self, s.pn, s.nSend, s.ctInFlight, s.pqKey.map S.kemPub⟩

/-- Seal under the next key of the sending chain and move on. -/
def sealNext (role : Role) (s : Ratchet S) (self : S.Priv) (ck : S.Key) (pt : Bytes) :
    Ratchet S × Sealed S :=
  let mk := S.chain.messageKey ck
  let header := encodeHeader (s.nextHeader self)
  let nonce := S.aeadNonce mk (Bytes.u32be s.nSend)
  ({ s with ckSend := some (S.chain.chainNext ck), nSend := s.nSend + 1 },
    ⟨⟨mk, nonce, header, S.aeadSeal mk nonce header pt, pt⟩, role⟩)

/-- A new sending chain is due. -/
def mustStep (s : Ratchet S) : Bool := s.stepBeforeSend || s.ckSend.isNone

/-- `encrypt(plaintext)`; `none` when it throws. -/
def encrypt (o : Opts) (role : Role) (s : Ratchet S) (d : EncryptDraws S) (pt : Bytes) :
    Ratchet S × Option (Sealed S) :=
  if s.mustStep then
    match S.dh d.newDh s.dhPeerPub with
    | none => ({ s with dhSelf := some d.newDh }, none)
    | some dh =>
      let s := openSendChain o s d dh
      match s.dhSelf, s.ckSend with
      | some self, some ck => let (s, e) := sealNext role s self ck pt; (s, some e)
      | _, _ => (s, none)
  else
    match s.dhSelf, s.ckSend with
    | some self, some ck => let (s, e) := sealNext role s self ck pt; (s, some e)
    -- `dhSelf!` and `ckSend!`: a state with one has the other
    | _, _ => (s, none)

end Ratchet

/-! ## Receiving -/

/-- The draws and clock readings of one `decrypt`. -/
structure DecryptDraws (S : Suite) where
  pruneAt : Time
  /-- read for each key held from the closed chain, by message number -/
  closingAt : Nat → Time
  /-- read for each key passed over on the frame's chain, by message number -/
  walkAt : Nat → Time
  pqAt : Time
  coins : S.Coins

/-- How a call ends that hands out no plaintext: `null`, or one of the throws. -/
inductive Refusal where
  | null
  | skipBound (asked bound : Nat)
  | dh
  | kem
  deriving DecidableEq

/-- The message of the `RatchetError`, the one throw of this file's own. -/
def Refusal.message : Refusal → Option String
  | .skipBound asked bound =>
    some s!"ratchet: peer skipped {asked} messages, over the {bound} bound — drop the frame (§7.3)"
  | _ => none

namespace Ratchet

/-- Walk a chain key forward, handing back the message keys passed over. -/
def advance (o : Opts) (ck : S.Key) (start stop : Nat) : Except Refusal (List S.Key × S.Key) :=
  if stop - start > o.maxSkip then .error (.skipBound (stop - start) o.maxSkip)
  else .ok (S.chain.walk ck (stop - start))

/-- The candidate key of message `n` opens the frame, or it is `null`. -/
def tryOpen (opens : Open S) (mk : S.Key) (header ct : Bytes) (n : Nat) : Except Refusal Bytes :=
  match opens mk (S.aeadNonce mk (Bytes.u32be n)) header ct with
  | some pt => .ok pt
  | none => .error .null

/-- 2. Same chain: walk forward from where we are. -/
def openSameChain (o : Opts) (opens : Open S) (s : Ratchet S) (d : DecryptDraws S) (ckRecv : S.Key)
    (h : Header) (header ct : Bytes) : Except Refusal (Ratchet S × Bytes) :=
  if h.n < s.nRecv then .error .null else do
  let walk ← advance o ckRecv s.nRecv h.n
  let pt ← tryOpen opens (S.chain.messageKey walk.2) header ct h.n
  return ({ s with
    skipped := SkippedKeys.putAll o.maxChains h.dhPub d.walkAt s.skipped s.nRecv walk.1
    ckRecv := some (S.chain.chainNext walk.2)
    nRecv := h.n + 1 }, pt)

/-- The keys held from the receiving chain that closes. -/
def closeChain (o : Opts) (s : Ratchet S) (h : Header) : Except Refusal (List S.Key) :=
  match s.ckRecv with
  | none => .ok []
  | some ckRecv => (advance o ckRecv s.nRecv h.pn).map Prod.fst

/-- The keying material of the step the header asks for; `none` when the decapsulation throws. -/
def answerIkm (s : Ratchet S) (h : Header) (dh : S.Shared) : Option (RootIkm S.Shared S.Ss) :=
  match h.pqCt with
  | none => some (.classical dh)
  | some pqCt => (s.pqKey.bind (S.decapsulate · pqCt)).map (.hybrid dh)

/-- The peer answered our key. -/
def countAnswer (s : Ratchet S) (h : Header) (pqAt : Time) : Ratchet S :=
  if h.pqCt.isSome then
    { s with pqKey := none, stepsSincePq := 0, lastPqAt := pqAt, pqStepsDone := s.pqStepsDone + 1 }
  else s

/-- 3. The conversation turned: close the current receiving chain, step the root, walk the new one. -/
def openTurned (o : Opts) (opens : Open S) (s : Ratchet S) (d : DecryptDraws S) (h : Header)
    (header ct : Bytes) : Except Refusal (Ratchet S × Bytes) :=
  match s.dhSelf with
  | none => .error .null
  | some self =>
    if h.pqCt.isSome && s.pqKey.isNone then .error .null else do
    let closing ← closeChain o s h
    let dh ← (S.dh self h.dhPub).elim (.error .dh) .ok
    let ikm ← (s.answerIkm h dh).elim (.error .null) .ok
    let step := S.dhStep s.rk ikm
    let walk ← advance o step.2 0 h.n
    let pt ← tryOpen opens (S.chain.messageKey walk.2) header ct h.n
    let held := SkippedKeys.putAll o.maxChains s.dhPeerPub d.closingAt s.skipped s.nRecv closing
    return (countAnswer { s with
      skipped := SkippedKeys.putAll o.maxChains h.dhPub d.walkAt held 0 walk.1
      rk := step.1
      ckRecv := some (S.chain.chainNext walk.2)
      dhPeerPub := h.dhPub
      nRecv := h.n + 1
      stepBeforeSend := true
      ctInFlight := none } h d.pqAt, pt)

/-- 1. A key we already derived for a message that overtook this one? Otherwise 2. or 3. -/
def openFrame (o : Opts) (opens : Open S) (s : Ratchet S) (d : DecryptDraws S) (h : Header)
    (header ct : Bytes) : Except Refusal (Ratchet S × Bytes) :=
  match s.skipped.peek h.dhPub h.n with
  | some stashed => do
    let pt ← tryOpen opens stashed header ct h.n
    return ({ s with skipped := s.skipped.drop h.dhPub h.n }, pt)
  | none =>
    if h.dhPub = s.dhPeerPub then
      match s.ckRecv with
      | none => .error .null
      | some ckRecv => openSameChain o opens s d ckRecv h header ct
    else openTurned o opens s d h header ct

/-- The peer's encapsulation key arrived: answer it once. `none` when `encapsulate` throws. -/
def notePeerPqPub (s : Ratchet S) (coins : S.Coins) (pqPub : Option Bytes) : Option (Ratchet S) :=
  match pqPub with
  | none => some s
  | some p =>
    if s.seenPeerPqPub = some p then some s
    else (S.encapsulate p coins).map fun (pqCt, ss) =>
      { s with pendingSs := some ss, pendingCt := some pqCt, seenPeerPqPub := some p }

def prune (o : Opts) (s : Ratchet S) (now : Time) : Ratchet S :=
  { s with skipped := s.skipped.prune o.ttl now }

/-- `decrypt(frame)`. Each of the three ways a frame opens commits its state and then notes the
peer's key; here the note is made once, after them. -/
def decrypt (o : Opts) (opens : Open S) (s : Ratchet S) (d : DecryptDraws S) (frame : Bytes) :
    Ratchet S × Except Refusal Bytes :=
  match decodeHeader frame with
  | none => (s, .error .null)
  | some (h, hdrLen) =>
    match openFrame o opens (s.prune o d.pruneAt) d h (frame.take hdrLen) (frame.drop hdrLen) with
    | .error r => (s.prune o d.pruneAt, .error r)
    | .ok (s, pt) =>
      match notePeerPqPub s d.coins h.pqPub with
      | none => (s, .error .kem)
      | some s => (s, .ok pt)

/-- `stats()`. -/
structure Stats where
  nSend : Nat
  nRecv : Nat
  skipped : Nat
  dhPub : Option Pub
  pqOutstanding : Bool
  pqSteps : Nat

def stats (s : Ratchet S) : Stats :=
  ⟨s.nSend, s.nRecv, s.skipped.size, s.dhSelf.map S.pub, s.pqKey.isSome, s.pqStepsDone⟩

end Ratchet

end EncedoChat.Eh2
