import EncedoChat.Eh2.Lemmas.Steps
import Mathlib.Logic.Function.Basic
import EncedoChat.Lib.Run

/-!
# Ideal primitives

What the security statements assume of a suite, and a symbolic suite of which all of it is true. The
AEAD is ideal as a log: it opens what was sealed, under the same key, nonce and associated data.
-/

namespace EncedoChat.Eh2

variable {S : Suite}

/-! ## The AEAD as a log -/

/-- Open what stands in the log, and nothing else. -/
def openIn (log : List (Sealed S)) : Open S := Box.openIn (log.map Sealed.toBox)

theorem openIn_eq_some {log : List (Sealed S)} {k : S.Key} {n : S.Nonce} {aad ct pt : Bytes}
    (h : openIn log k n aad ct = some pt) : ∃ e ∈ log, e.Matches k n aad ct ∧ e.pt = pt := by
  obtain ⟨b, hb, hm, hpt⟩ := Box.openIn_eq_some h
  obtain ⟨e, he, rfl⟩ := List.mem_map.mp hb
  exact ⟨e, he, hm, hpt⟩

theorem openIn_sealed {log : List (Sealed S)} (hnd : (log.map fun e => (e.key, e.nonce)).Nodup)
    {e : Sealed S} (he : e ∈ log) : openIn log e.key e.nonce e.aad e.ct = some e.pt :=
  Box.openIn_sealed (by rwa [List.map_map]) (List.mem_map_of_mem he)

/-! ## The laws -/

/-- DH agreement, collision-free derivations, and a KEM that decapsulates what was made for its key. -/
structure Suite.Ideal (S : Suite) : Prop where
  dh_some : ∀ a b, (S.dh a (S.pub b)).isSome
  dh_comm : ∀ a b, S.dh a (S.pub b) = S.dh b (S.pub a)
  dh_inj : ∀ {a b a' b'}, S.dh a (S.pub b) = S.dh a' (S.pub b') →
    (S.pub a = S.pub a' ∧ S.pub b = S.pub b') ∨ (S.pub a = S.pub b' ∧ S.pub b = S.pub a')
  dhStep_ck_inj : ∀ {rk rk' i i'}, (S.dhStep rk i).2 = (S.dhStep rk' i').2 → rk = rk' ∧ i = i'
  chain : S.chain.Ideal fun k => ∃ rk i, k = (S.dhStep rk i).2
  encapsulate_some : ∀ k coins, (S.encapsulate (S.kemPub k) coins).isSome
  decapsulate : ∀ {k coins ct ss}, S.encapsulate (S.kemPub k) coins = some (ct, ss) →
    S.decapsulate k ct = some ss
  kemPub_fits : ∀ k, FieldOk (some (S.kemPub k))
  ct_fits : ∀ {p coins ct ss}, S.encapsulate p coins = some (ct, ss) → FieldOk (some ct)
  tag : ∀ k n aad pt, 16 ≤ (S.aeadSeal k n aad pt).length

namespace Suite.Ideal

variable (I : S.Ideal)
include I

/-- Message keys of two chains agree only if the chains were opened by one root step. -/
theorem keyAt_inj {rk rk' : S.Key} {i i' : RootIkm S.Shared S.Ss} {m n : Nat}
    (h : S.chain.keyAt (S.dhStep rk i).2 m = S.chain.keyAt (S.dhStep rk' i').2 n) :
    rk = rk' ∧ i = i' ∧ m = n := by
  obtain ⟨hck, hmn⟩ := I.chain.keyAt_eq ⟨_, _, rfl⟩ ⟨_, _, rfl⟩ h
  obtain ⟨hrk, hi⟩ := I.dhStep_ck_inj hck
  exact ⟨hrk, hi, hmn⟩

end Suite.Ideal

/-! ## A symbolic suite

Keys are the terms that derived them. Private keys are named by a byte. -/

namespace Symbolic

inductive Key where
  | secret (n : Nat)
  | root (rk : Key) (ikm : RootIkm (UInt8 × UInt8) (UInt8 × UInt8 × UInt8))
  | chain (rk : Key) (ikm : RootIkm (UInt8 × UInt8) (UInt8 × UInt8 × UInt8))
  | message (ck : Key)
  | next (ck : Key)
  deriving DecidableEq

def pub (a : UInt8) : Pub := ⟨a :: 1 :: List.replicate 30 0, rfl⟩

/-- The unordered pair of two keys. -/
def sorted (a b : UInt8) : UInt8 × UInt8 := if a ≤ b then (a, b) else (b, a)

/-- No agreement with bytes that are nobody's key. -/
def dh (a : UInt8) (p : Pub) : Option (UInt8 × UInt8) :=
  let b := p.1.getD 0 0
  if p = pub b then some (sorted a b) else none

def encapsulate (p : Bytes) (coins : UInt8) : Option (Bytes × (UInt8 × UInt8 × UInt8)) :=
  match p with
  | [k] => some ([k, coins], (k, k, coins))
  | _ => none

/-- Under another key than the one the ciphertext was made for, a secret of its own. -/
def decapsulate (k : UInt8) (ct : Bytes) : Option (UInt8 × UInt8 × UInt8) :=
  match ct with
  | [j, coins] => some (k, j, coins)
  | _ => none

def suite : Suite where
  Key := Key
  Priv := UInt8
  Shared := UInt8 × UInt8
  KemKey := UInt8
  Ss := UInt8 × UInt8 × UInt8
  Coins := UInt8
  Nonce := Bytes
  pub := pub
  dh := dh
  kemPub k := [k]
  encapsulate := encapsulate
  decapsulate := decapsulate
  dhStep rk ikm := (.root rk ikm, .chain rk ikm)
  chain := ⟨.message, .next⟩
  aeadNonce _ n := n
  aeadSeal _ _ _ pt := pt ++ List.replicate 16 0

theorem pub_inj {a b : UInt8} (h : pub a = pub b) : a = b := by
  simpa [pub] using congrArg (fun p : Pub => p.1.getD 0 0) h

theorem dh_pub (a b : UInt8) : dh a (pub b) = some (sorted a b) := by
  simp [dh, pub]

theorem sorted_comm (a b : UInt8) : sorted a b = sorted b a := by
  unfold sorted
  rcases UInt8.le_total a b with hab | hab
  · by_cases hba : b ≤ a
    · simp [UInt8.le_antisymm hab hba]
    · simp [hab, hba]
  · by_cases hba : a ≤ b
    · simp [UInt8.le_antisymm hab hba]
    · simp [hab, hba]

theorem sorted_inj {a b a' b' : UInt8} (h : sorted a b = sorted a' b') :
    (a = a' ∧ b = b') ∨ (a = b' ∧ b = a') := by
  unfold sorted at h
  split at h <;> split at h <;> simp only [Prod.mk.injEq] at h <;> tauto

theorem dh_inj {a b a' b' : UInt8} (h : dh a (pub b) = dh a' (pub b')) :
    (a = a' ∧ b = b') ∨ (a = b' ∧ b = a') := by
  rw [dh_pub, dh_pub, Option.some.injEq] at h
  exact sorted_inj h

theorem encapsulate_eq {p : Bytes} {coins : UInt8} {ct : Bytes} {ss : UInt8 × UInt8 × UInt8}
    (h : encapsulate p coins = some (ct, ss)) : ∃ k, p = [k] ∧ ct = [k, coins] ∧ ss = (k, k, coins) := by
  unfold encapsulate at h
  split at h
  · simp only [Option.some.injEq, Prod.mk.injEq] at h
    exact ⟨_, rfl, h.1.symm, h.2.symm⟩
  · cases h

theorem ideal : suite.Ideal where
  dh_some (a b : UInt8) := by
    show (dh a (pub b)).isSome
    simp [dh_pub]
  dh_comm (a b : UInt8) := by
    show dh a (pub b) = dh b (pub a)
    rw [dh_pub, dh_pub, sorted_comm]
  dh_inj {a b a' b'} h := by
    rcases dh_inj h with ⟨rfl, rfl⟩ | ⟨rfl, rfl⟩
    · exact Or.inl ⟨rfl, rfl⟩
    · exact Or.inr ⟨rfl, rfl⟩
  dhStep_ck_inj h := Key.chain.inj h
  chain := {
    messageKey_inj := fun h => Key.message.inj h
    chainNext_inj := fun h => Key.next.inj h
    chainNext_not_start := by rintro a ⟨rk, i, h⟩; cases h }
  encapsulate_some _ _ := rfl
  decapsulate {k coins ct ss} h := by
    have h' : encapsulate [k] coins = some (ct, ss) := h
    obtain ⟨k', hk, rfl, rfl⟩ := encapsulate_eq h'
    cases hk
    rfl
  kemPub_fits k := by
    rintro b ⟨⟩
    exact ⟨Nat.one_pos, show 1 < 2 ^ 16 by decide⟩
  ct_fits {p coins ct ss} h := by
    rintro b ⟨⟩
    have h' : encapsulate p coins = some (ct, ss) := h
    obtain ⟨k, -, rfl, -⟩ := encapsulate_eq h'
    exact ⟨Nat.two_pos, show 2 < 2 ^ 16 by decide⟩
  tag k n aad pt := by simp [suite]

end Symbolic

end EncedoChat.Eh2

/-!
# Two ratchets of one handshake

The two sides, the frames they sealed and what was opened. A delivery hands a side any bytes: a frame
of the peer, early, late or again, or something an attacker made.
-/

namespace EncedoChat.Eh2

variable {S : Suite}

/-- A completed handshake: the two results agree. -/
structure Session (S : Suite) where
  sk : S.Key
  ekI : S.Priv
  ekR : S.Priv
  firstStepIkm : S.Shared
  agreed : S.dh ekI (S.pub ekR) = some firstStepIkm
  distinct : S.pub ekI ≠ S.pub ekR

def Session.result (hs : Session S) : Role → HandshakeResult S
  | .initiator => ⟨.initiator, hs.sk, some hs.ekI, S.pub hs.ekR, hs.firstStepIkm⟩
  | .responder => ⟨.responder, hs.sk, none, S.pub hs.ekI, hs.firstStepIkm⟩

structure Opened where
  receiver : Role
  frame : Bytes
  pt : Bytes
  deriving DecidableEq

structure World (S : Suite) where
  side : Role → Ratchet S
  /-- every frame sealed, newest first -/
  sealed : List (Sealed S)
  /-- every plaintext handed out, newest first -/
  opened : List Opened
  /-- the ratchet keys drawn -/
  drawn : List Pub
  /-- the keys a side let go for their age -/
  expired : List (Role × Pub × Nat)

namespace World

def start (hs : Session S) (now : Role → Time) : World S :=
  ⟨fun X => ratchetFrom (hs.result X) (now X), [], [], [S.pub hs.ekI, S.pub hs.ekR], []⟩

end World

/-- A call on one side. `seen` is what the AEAD was asked against: frames sealed by then. -/
inductive Act (S : Suite) where
  | encrypt (X : Role) (d : EncryptDraws S) (pt : Bytes)
  | decrypt (X : Role) (d : DecryptDraws S) (seen : List (Sealed S)) (frame : Bytes)

/-- The keys past their age at a reading of the clock. -/
def SkippedKeys.stale {K : Type} (ttlMs : Time) (s : SkippedKeys K) (now : Time) : List (Pub × Nat) :=
  s.chains.entries.flatMap fun c =>
    (c.2.entries.filter fun e => decide (now - e.2.ts > ttlMs)).map fun e => (c.1, e.1)

namespace World

def act (o : Opts) (w : World S) : Act S → World S
  | .encrypt X d pt =>
    let r := (w.side X).encrypt o X d pt
    { w with
      side := Function.update w.side X r.1
      sealed := r.2.toList ++ w.sealed
      drawn := S.pub d.newDh :: w.drawn }
  | .decrypt X d seen frame =>
    let r := (w.side X).decrypt o (openIn seen) d frame
    { w with
      side := Function.update w.side X r.1
      opened := r.2.toOption.toList.map (⟨X, frame, ·⟩) ++ w.opened
      expired := (if (decodeHeader frame).isNone then []
        else ((w.side X).skipped.stale o.ttl d.pruneAt).map (X, ·)) ++ w.expired }

/-- Fresh keys are fresh, and the AEAD opens only what was sealed. -/
def Ok (w : World S) : Act S → Prop
  | .encrypt _ d _ => S.pub d.newDh ∉ w.drawn
  | .decrypt _ _ seen _ => seen ⊆ w.sealed

instance (w : World S) (a : Act S) : Decidable (w.Ok a) :=
  match a with
  | .encrypt _ d _ => inferInstanceAs (Decidable (S.pub d.newDh ∉ w.drawn))
  | .decrypt _ _ seen _ => inferInstanceAs (Decidable (∀ e ∈ seen, e ∈ w.sealed))

end World

namespace Symbolic

def session : Session suite where
  sk := .secret 0
  ekI := (1 : UInt8)
  ekR := (2 : UInt8)
  firstStepIkm := ((1 : UInt8), (2 : UInt8))
  agreed := dh_pub 1 2
  distinct h := absurd (pub_inj h) (by decide)

end Symbolic

end EncedoChat.Eh2
