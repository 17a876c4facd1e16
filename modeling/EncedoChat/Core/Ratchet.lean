import EncedoChat.Eh2.State
import EncedoChat.Core.Skipped

/-!
# The ratchet of the Rust core

`Ratchet` of `core-rs/src/ratchet.rs`, over the primitives of the TypeScript one. A clock reading is a
`u64` of milliseconds, one for each call; what is drawn is an argument of the call that may draw it.
-/

namespace EncedoChat.Core

open EncedoChat.Eh2 (Suite RootIkm Pub Header HandshakeResult Open)

variable {S : Suite}

/-- X25519 as `x25519-dalek` computes it. It refuses nothing: `dh` of the suite is the same function,
but for the all-zero outputs WebCrypto throws on. -/
structure Dalek (S : Suite) where
  dh : S.Priv → Pub → S.Shared
  dh_eq : ∀ {k p d}, S.dh k p = some d → dh k p = d

structure RatchetOpts where
  maxSkipPerChain : UInt32 := 1000
  maxChainsBack : Nat := 5
  skippedTtlMs : UInt64 := 24 * 60 * 60 * 1000
  pqEverySteps : UInt32 := 4
  pqEveryMs : UInt64 := 30 * 60000

structure Stats where
  nSend : Nat
  nRecv : Nat
  skipped : Nat
  pqOutstanding : Bool
  pqSteps : Nat
  deriving DecidableEq

structure Ratchet (S : Suite) where
  rk : S.Key
  dhSelf : Option S.Priv
  dhPeerPub : Pub
  ckSend : Option S.Key
  ckRecv : Option S.Key
  nSend : Nat
  nRecv : Nat
  pn : Nat
  stepBeforeSend : Bool
  skipped : Skipped S.Key
  pqKey : Option S.KemKey
  pendingSs : Option S.Ss
  pendingCt : Option Bytes
  ctInFlight : Option Bytes
  seenPeerPqPub : Option Bytes
  stepsSincePq : Nat
  lastPqAt : Nat
  pqStepsDone : Nat

namespace Ratchet

def fromHandshake (hs : HandshakeResult S) (now : Nat) : Ratchet S :=
  let step := S.dhStep hs.sk (.classical hs.firstStepIkm)
  let initiator := hs.role = .initiator
  { rk := step.1
    dhSelf := hs.ekSelf, dhPeerPub := hs.ekPeerPub
    ckSend := if initiator then some step.2 else none
    ckRecv := if initiator then none else some step.2
    nSend := 0, nRecv := 0, pn := 0
    stepBeforeSend := ¬initiator
    skipped := ⟨[]⟩
    pqKey := none, pendingSs := none, pendingCt := none, ctInFlight := none, seenPeerPqPub := none
    stepsSincePq := 0, lastPqAt := now, pqStepsDone := 0 }

def stats (s : Ratchet S) : Stats :=
  ⟨s.nSend, s.nRecv, s.skipped.size, s.pqKey.isSome, s.pqStepsDone⟩

/-! ## Sending -/

/-- The root step of `encrypt`, and what it counts. -/
def stepRoot (X : Dalek S) (s : Ratchet S) (me : S.Priv) (now : Nat) : Ratchet S × (S.Key × S.Key) :=
  let dh := X.dh me s.dhPeerPub
  match s.pendingSs with
  | some ss =>
    ({ s with
        pendingSs := none, ctInFlight := s.pendingCt, pendingCt := none, stepsSincePq := 0, lastPqAt := now
        pqStepsDone := u32 (s.pqStepsDone + 1) }, S.dhStep s.rk (.hybrid dh ss))
  | none => ({ s with stepsSincePq := u32 (s.stepsSincePq + 1) }, S.dhStep s.rk (.classical dh))

/-- A fresh encapsulation key is due. -/
def pqDue (o : RatchetOpts) (s : Ratchet S) (now : Nat) : Bool :=
  s.pqKey.isNone && (decide (o.pqEverySteps.toNat ≤ s.stepsSincePq) ||
    decide (o.pqEveryMs.toNat ≤ now - s.lastPqAt))

def openSendChain (X : Dalek S) (o : RatchetOpts) (s : Ratchet S) (me : S.Priv) (kemKey : S.KemKey)
    (now : Nat) : Ratchet S :=
  let step := s.stepRoot X me now
  let s := { step.1 with
    rk := step.2.1, ckSend := some step.2.2, dhSelf := some me, pn := s.nSend, nSend := 0
    stepBeforeSend := false }
  if pqDue o s now then { s with pqKey := some kemKey } else s

def sealNext (s : Ratchet S) (me : S.Priv) (ck : S.Key) (plaintext : Bytes) : Ratchet S × Bytes :=
  let mk := S.chain.messageKey ck
  let header := encodeHeader ⟨S.pub me, s.pn, s.nSend, s.ctInFlight, s.pqKey.map S.kemPub⟩
  let ct := S.aeadSeal mk (S.aeadNonce mk (Bytes.u32be s.nSend)) header plaintext
  ({ s with ckSend := some (S.chain.chainNext ck), nSend := u32 (s.nSend + 1) }, header ++ ct)

/-- `none` when one of the two `unwrap`s panics. -/
def encrypt (X : Dalek S) (o : RatchetOpts) (s : Ratchet S) (me : S.Priv) (kemKey : S.KemKey) (now : Nat)
    (plaintext : Bytes) : Option (Ratchet S × Bytes) :=
  let s := if s.stepBeforeSend || s.ckSend.isNone then openSendChain X o s me kemKey now else s
  match s.dhSelf, s.ckSend with
  | some me, some ck => some (sealNext s me ck plaintext)
  | _, _ => none

/-! ## Receiving -/

/-- How a `decrypt` ends that hands out no plaintext. -/
inductive Stop where
  /-- `Ok(None)`: not ours, tampered, or a replay. -/
  | notOurs
  /-- `Err(RatchetError::SkipBound(n))`. -/
  | skipBound (n : Nat)
  /-- An index out of bounds: the module aborts. -/
  | panic
  deriving DecidableEq

def advance (o : RatchetOpts) (ck : S.Key) (start stop : Nat) : Except Stop (List S.Key × S.Key) :=
  if stop - start > o.maxSkipPerChain.toNat then .error (.skipBound (stop - start))
  else .ok (S.chain.walk ck (stop - start))

def tryOpen (opens : Open S) (mk : S.Key) (header ct : Bytes) (n : Nat) : Except Stop Bytes :=
  match opens mk (S.aeadNonce mk (Bytes.u32be n)) header ct with
  | some pt => .ok pt
  | none => .error .notOurs

/-- Put the keys passed over since message `start`, or panic. -/
def hold (o : RatchetOpts) (dhPub : Pub) (start now : Nat) (sk : Skipped S.Key) (keys : List S.Key) :
    Except Stop (Skipped S.Key) :=
  match Skipped.putAll o.maxChainsBack dhPub start now sk 0 keys with
  | some sk => .ok sk
  | none => .error .panic

/-- 2. Same chain: walk forward. -/
def openSameChain (o : RatchetOpts) (opens : Open S) (s : Ratchet S) (now : Nat) (ck : S.Key) (h : Header)
    (header ct : Bytes) : Except Stop (Ratchet S × Bytes) :=
  if h.n < s.nRecv then .error .notOurs else do
  let (keys, at_) ← advance o ck s.nRecv h.n
  let pt ← tryOpen opens (S.chain.messageKey at_) header ct h.n
  let skipped ← hold o h.dhPub s.nRecv now s.skipped keys
  return ({ s with skipped := skipped, ckRecv := some (S.chain.chainNext at_), nRecv := u32 (h.n + 1) }, pt)

/-- The keys held from the receiving chain that closes. -/
def closeChain (o : RatchetOpts) (s : Ratchet S) (h : Header) : Except Stop (List S.Key) :=
  match s.ckRecv with
  | some ck => do
    let (keys, _) ← advance o ck s.nRecv h.pn
    return keys
  | none => .ok []

def answerIkm (s : Ratchet S) (h : Header) (dh : S.Shared) : Except Stop (RootIkm S.Shared S.Ss) :=
  match h.pqCt with
  | none => .ok (.classical dh)
  | some pqCt =>
    match s.pqKey.bind (S.decapsulate · pqCt) with
    | some ss => .ok (.hybrid dh ss)
    | none => .error .notOurs

/-- 3. The conversation turned: close the current receiving chain, step the root, walk the new chain. -/
def openTurned (X : Dalek S) (o : RatchetOpts) (opens : Open S) (s : Ratchet S) (now : Nat) (h : Header)
    (header ct : Bytes) : Except Stop (Ratchet S × Bytes) :=
  match s.dhSelf with
  | none => .error .notOurs
  | some me =>
    if h.pqCt.isSome && s.pqKey.isNone then .error .notOurs else do
    let closing ← closeChain o s h
    let ikm ← s.answerIkm h (X.dh me h.dhPub)
    let step := S.dhStep s.rk ikm
    let (keys, at_) ← advance o step.2 0 h.n
    let pt ← tryOpen opens (S.chain.messageKey at_) header ct h.n
    let held ← hold o s.dhPeerPub s.nRecv now s.skipped closing
    let skipped ← hold o h.dhPub 0 now held keys
    let s := { s with
      skipped := skipped, rk := step.1, ckRecv := some (S.chain.chainNext at_), dhPeerPub := h.dhPub
      nRecv := u32 (h.n + 1), stepBeforeSend := true, ctInFlight := none }
    if h.pqCt.isSome then
      return ({ s with
        pqKey := none, stepsSincePq := 0, lastPqAt := now, pqStepsDone := u32 (s.pqStepsDone + 1) }, pt)
    else return (s, pt)

/-- 1. A key derived for a message that overtook this one? Otherwise 2. or 3. -/
def openFrame (X : Dalek S) (o : RatchetOpts) (opens : Open S) (s : Ratchet S) (now : Nat) (h : Header)
    (header ct : Bytes) : Except Stop (Ratchet S × Bytes) :=
  match s.skipped.peek h.dhPub h.n with
  | some key => do
    let pt ← tryOpen opens key header ct h.n
    return ({ s with skipped := s.skipped.dropKey h.dhPub h.n }, pt)
  | none =>
    if h.dhPub = s.dhPeerPub then
      match s.ckRecv with
      | none => .error .notOurs
      | some ck => openSameChain o opens s now ck h header ct
    else openTurned X o opens s now h header ct

/-- The peer's encapsulation key arrived on a frame that opened: answer it once, or not at all. -/
def notePeerPqPub (s : Ratchet S) (pubKey : Option Bytes) (m : S.Coins) : Ratchet S :=
  match pubKey with
  | none => s
  | some p =>
    if s.seenPeerPqPub = some p then s
    else match S.encapsulate p m with
      | some (ct, ss) => { s with pendingSs := some ss, pendingCt := some ct, seenPeerPqPub := some p }
      | none => s

def prune (o : RatchetOpts) (s : Ratchet S) (now : Nat) : Ratchet S :=
  { s with skipped := s.skipped.prune o.skippedTtlMs.toNat now }

/-- `decrypt(rng, now_ms, frame)`. -/
def decrypt (X : Dalek S) (o : RatchetOpts) (opens : Open S) (s : Ratchet S) (m : S.Coins) (now : Nat)
    (frame : Bytes) : Ratchet S × Except Stop Bytes :=
  match decodeHeader frame with
  | none => (s, .error .notOurs)
  | some (h, hdrLen) =>
    match openFrame X o opens (s.prune o now) now h (frame.take hdrLen) (frame.drop hdrLen) with
    | .error e => (s.prune o now, .error e)
    | .ok (s, pt) => (s.notePeerPqPub h.pqPub m, .ok pt)

end Ratchet

end EncedoChat.Core
