import EncedoChat.Lib.Aead
import EncedoChat.Lib.KeyChain
import EncedoChat.Lib.OrdMap

/-!
# Sender keys

`seal` and `SenderReceiver` of `lib/senderkey.ts`. An opening reads the receiver once, before its first
await, and writes it once, after the AEAD has answered: `start` and `commit` are these two halves. Buffers
are values, so the wiping of a key is not modelled.
-/

namespace EncedoChat.Group

/-- What the sender keys call: HMAC chain, nonce derivation, AES-GCM. -/
structure Suite where
  Key : Type
  Nonce : Type
  [decKey : DecidableEq Key]
  [decNonce : DecidableEq Nonce]
  chain : KeyChain Key
  /-- `aeadNonce(mk, n)`, the counter as four bytes. -/
  aeadNonce : Key → Bytes → Nonce
  /-- key, nonce, header, plaintext. -/
  aeadSeal : Key → Nonce → Bytes → Bytes → Bytes

attribute [instance] Suite.decKey Suite.decNonce

variable {S : Suite}

abbrev Log (S : Suite) := List (Box S.Key S.Nonce)

/-- What opens a frame: key, nonce, header, ciphertext. -/
abbrev Open (S : Suite) := S.Key → S.Nonce → Bytes → Bytes → Option Bytes

/-- A clock reading in milliseconds. -/
abbrev Time := Int

def MAX_SKIP : Nat := 2000
def SKIPPED_TTL_MS : Time := 24 * 60 * 60 * 1000

/-! ## The sending chain -/

structure SendChain (S : Suite) where
  key : S.Key
  n : Nat

def newSendChain (random : S.Key) : SendChain S := ⟨random, 0⟩

/-- What `seal` makes of a message key, a counter and a header. -/
def aeadBox (mk : S.Key) (n : Nat) (header pt : Bytes) : Box S.Key S.Nonce :=
  let nonce := S.aeadNonce mk (Bytes.u32be n)
  ⟨mk, nonce, header, S.aeadSeal mk nonce header pt, pt⟩

/-! ## The receiving chain -/

structure ReceiverOpts where
  maxSkip : Nat := MAX_SKIP
  ttlMs : Time := SKIPPED_TTL_MS

structure Stashed (K : Type) where
  key : K
  ts : Time

structure SenderReceiver (S : Suite) where
  key : S.Key
  n : Nat
  skipped : OrdMap Nat (Stashed S.Key)

/-- What an opening works from once it awaits: a key set aside, or the chain as it stood. -/
inductive Candidate (K : Type) where
  | stashed (mk : K)
  | ahead (key : K) (n : Nat)

/-- How an opening ends that delivers nothing: `null`, or the throw over the skip bound. -/
inductive Refusal where
  | null
  | skipBound (asked bound : Nat)
  deriving DecidableEq

def Refusal.message : Refusal → Option String
  | .skipBound asked bound => some s!"senderkey: skip of {asked} over the {bound} bound"
  | .null => none

/-- The message key of `n` that the candidate leads to. -/
def Candidate.keyAt {K : Type} (C : KeyChain K) (n : Nat) : Candidate K → K
  | .stashed mk => mk
  | .ahead key start => C.keyAt key (n - start)

/-- Set keys aside under consecutive counters, from `n` on. -/
def putAll {K : Type} (t : Time) : OrdMap Nat (Stashed K) → Nat → List K → OrdMap Nat (Stashed K)
  | m, _, [] => m
  | m, n, k :: ks => putAll t (m.set n ⟨k, t⟩) (n + 1) ks

namespace SenderReceiver

/-- `SenderReceiver.from(key, n)`. -/
def make (key : S.Key) (n : Nat) : SenderReceiver S := ⟨key, n, .empty⟩

/-- `snapshot()`: the skipped keys are dropped. -/
def snapshot (r : SenderReceiver S) : S.Key × Nat := (r.key, r.n)

def prune (o : ReceiverOpts) (r : SenderReceiver S) (t : Time) : SenderReceiver S :=
  { r with skipped := r.skipped.filter fun _ s => !decide (t - s.ts > o.ttlMs) }

/-- `open` from the pruning up to its first await. -/
def start (o : ReceiverOpts) (r : SenderReceiver S) (n : Nat) : Except Refusal (Candidate S.Key) :=
  match r.skipped.get n with
  | some s => .ok (.stashed s.key)
  | none =>
    if n < r.n then .error .null
    else if n - r.n > o.maxSkip then .error (.skipBound (n - r.n) o.maxSkip)
    else .ok (.ahead r.key r.n)

def tryOpen (opens : Open S) (c : Candidate S.Key) (n : Nat) (header ct : Bytes) : Option Bytes :=
  let mk := c.keyAt S.chain n
  opens mk (S.aeadNonce mk (Bytes.u32be n)) header ct

/-- `open` once the AEAD has verified the frame. -/
def commit (r : SenderReceiver S) (c : Candidate S.Key) (n : Nat) (t : Time) : SenderReceiver S :=
  match c with
  | .stashed _ => { r with skipped := r.skipped.delete n }
  | .ahead key start =>
    let walk := S.chain.walk key (n - start)
    { key := S.chain.chainNext walk.2
      n := n + 1
      skipped := putAll t r.skipped start walk.1 }

/-- `open(n, header, ct)` with nothing in between; `t` is read for the pruning, `t'` at the commit. -/
def openAt (o : ReceiverOpts) (opens : Open S) (r : SenderReceiver S) (t t' : Time) (n : Nat)
    (header ct : Bytes) : SenderReceiver S × Except Refusal Bytes :=
  let r := r.prune o t
  match r.start o n with
  | .error e => (r, .error e)
  | .ok c =>
    match tryOpen opens c n header ct with
    | none => (r, .error .null)
    | some pt => (r.commit c n t', .ok pt)

end SenderReceiver

/-! ## What each part does to a key set aside -/

theorem get_putAll {K : Type} {t : Time} {ks : List K} {m : OrdMap Nat (Stashed K)} {n k : Nat} :
    (putAll t m n ks).get k =
      if n ≤ k then (ks[k - n]?).elim (m.get k) fun mk => some ⟨mk, t⟩ else m.get k := by
  induction ks generalizing m n with
  | nil => simp [putAll]
  | cons mk ks ih =>
      rw [putAll, ih, OrdMap.get_set]
      rcases Nat.lt_trichotomy k n with hlt | rfl | hgt
      · rw [if_neg (by omega), if_neg (by omega), if_neg (by omega)]
      · rw [if_neg (by omega), if_pos rfl, if_pos (Nat.le_refl k)]
        simp
      · obtain ⟨d, hd⟩ : ∃ d, k - n = d + 1 := ⟨k - n - 1, by omega⟩
        rw [if_pos (by omega), if_neg (by omega), if_pos (by omega), hd, List.getElem?_cons_succ,
          show k - (n + 1) = d by omega]

/-- Walking from `start` to `n` sets aside the keys of the counters in between. -/
theorem get_putAll_walk {C : KeyChain S.Key} {t : Time} {m : OrdMap Nat (Stashed S.Key)} {ck : S.Key}
    {start n k : Nat} : (putAll t m start (C.walk ck (n - start)).1).get k =
      if start ≤ k ∧ k < n then some ⟨C.keyAt ck (k - start), t⟩ else m.get k := by
  rw [get_putAll]
  by_cases hge : start ≤ k
  · by_cases hlt : k < n
    · rw [if_pos hge, if_pos ⟨hge, hlt⟩, KeyChain.walk_getElem? _ _ (by omega), Option.elim_some]
    · have hlen : (C.walk ck (n - start)).1.length ≤ k - start := by
        rw [KeyChain.length_walk]
        omega
      rw [if_pos hge, if_neg (by omega), List.getElem?_eq_none hlen, Option.elim_none]
  · rw [if_neg hge, if_neg (by omega)]

namespace SenderReceiver

variable {o : ReceiverOpts} {r : SenderReceiver S} {n k : Nat}

theorem get_prune {t : Time} {s : Stashed S.Key} :
    (r.prune o t).skipped.get k = some s ↔ r.skipped.get k = some s ∧ t - s.ts ≤ o.ttlMs := by
  rw [prune, OrdMap.get_filter]
  simp

theorem start_ok {c : Candidate S.Key} :
    r.start o n = .ok c ↔ (∃ s, r.skipped.get n = some s ∧ c = .stashed s.key) ∨
      (r.skipped.get n = none ∧ r.n ≤ n ∧ n - r.n ≤ o.maxSkip ∧ c = .ahead r.key r.n) := by
  unfold start
  cases hg : r.skipped.get n with
  | some s => simp [eq_comm]
  | none =>
      dsimp only
      split
      · rename_i hlt
        simp only [reduceCtorEq, false_and, exists_false, true_and, false_or, false_iff]
        omega
      · split
        · simp only [reduceCtorEq, false_and, exists_false, true_and, false_or, false_iff]
          omega
        · simp only [Except.ok.injEq, reduceCtorEq, false_and, exists_false, true_and, false_or]
          constructor
          · intro h
            exact ⟨by omega, by omega, h.symm⟩
          · intro h
            exact h.2.2.symm

/-! ## Following one sender's chain -/

/-- The receiver stands on the chain that starts at `ck`, and holds its keys. -/
structure Tracks (ck : S.Key) (r : SenderReceiver S) : Prop where
  key : r.key = S.chain.chainAt ck r.n
  skipped : ∀ k s, r.skipped.get k = some s → s.key = S.chain.keyAt ck k ∧ k < r.n

variable {ck : S.Key}

theorem Tracks.make (c : Nat) : Tracks ck (make (S.chain.chainAt ck c) c) :=
  ⟨rfl, fun k s h => by cases h⟩

theorem Tracks.prune (hr : Tracks ck r) (t : Time) : Tracks ck (r.prune o t) :=
  ⟨hr.key, fun k s h => hr.skipped k s (get_prune.mp h).1⟩

/-- A candidate leads to the message key of the counter it was taken for. -/
theorem Tracks.keyAt (hr : Tracks ck r) {c : Candidate S.Key} (hs : r.start o n = .ok c) :
    c.keyAt S.chain n = S.chain.keyAt ck n := by
  rcases start_ok.mp hs with ⟨s, hg, rfl⟩ | ⟨-, hle, -, rfl⟩
  · exact (hr.skipped n s hg).1
  · rw [Candidate.keyAt, hr.key, KeyChain.keyAt, KeyChain.chainAt_add, KeyChain.keyAt, Nat.add_sub_cancel' hle]

/-! ## Counters taken away -/

/-- Keys are set aside for counters gone past only. -/
def Ordered (r : SenderReceiver S) : Prop := ∀ k s, r.skipped.get k = some s → k < r.n

theorem Tracks.ordered (hr : Tracks ck r) : r.Ordered := fun k s h => (hr.skipped k s h).2

theorem Ordered.make (key : S.Key) (c : Nat) : (make key c : SenderReceiver S).Ordered := by
  intro k s h
  cases h

theorem Ordered.prune (hr : r.Ordered) (t : Time) : (r.prune o t).Ordered :=
  fun k s h => hr k s (get_prune.mp h).1

/-- The candidate is one for counter `n`, and the receiver has not moved since it was taken. -/
def Fits (r : SenderReceiver S) (n : Nat) : Candidate S.Key → Prop
  | .stashed _ => n < r.n
  | .ahead _ start => start = r.n ∧ r.n ≤ n

theorem Ordered.fits (hr : r.Ordered) {c : Candidate S.Key} (hs : r.start o n = .ok c) : Fits r n c := by
  obtain ⟨s, hg, rfl⟩ | ⟨-, hle, -, rfl⟩ := start_ok.mp hs
  · exact hr n s hg
  · exact ⟨rfl, hle⟩

theorem Fits.prune {c : Candidate S.Key} (h : Fits r n c) (t : Time) : Fits (r.prune o t) n c := by
  cases c <;> exact h

theorem Ordered.commit (hr : r.Ordered) {c : Candidate S.Key} (hc : Fits r n c) (t : Time) :
    (r.commit c n t).Ordered := by
  intro k s h
  cases c with
  | stashed => exact hr k s (OrdMap.get_delete_some h).2
  | ahead key start =>
      obtain ⟨rfl, hle⟩ := hc
      simp only [SenderReceiver.commit, get_putAll_walk] at h ⊢
      split at h
      · omega
      · have := hr k s h
        omega

/-- The candidate was taken on the chain that starts at `ck`. -/
def OnChain (ck : S.Key) (n : Nat) : Candidate S.Key → Prop
  | .stashed key => key = S.chain.keyAt ck n
  | .ahead key start => key = S.chain.chainAt ck start

theorem Tracks.onChain (hr : Tracks ck r) {c : Candidate S.Key} (hs : r.start o n = .ok c) : OnChain ck n c := by
  obtain ⟨s, hg, rfl⟩ | ⟨-, -, -, rfl⟩ := start_ok.mp hs
  · exact (hr.skipped n s hg).1
  · exact hr.key

theorem Tracks.commit (hr : Tracks ck r) {c : Candidate S.Key} (hfit : Fits r n c) (hc : OnChain ck n c)
    (t : Time) : Tracks ck (r.commit c n t) := by
  cases c with
  | stashed => exact ⟨hr.key, fun k s h => hr.skipped k s (OrdMap.get_delete_some h).2⟩
  | ahead key start =>
      obtain ⟨rfl, hle⟩ := hfit
      have hkey : key = S.chain.chainAt ck r.n := hc
      refine ⟨?_, ?_⟩
      · show S.chain.chainNext (S.chain.walk key (n - r.n)).2 = S.chain.chainAt ck (n + 1)
        rw [KeyChain.walk_snd, hkey, KeyChain.chainAt_add, Nat.add_sub_cancel' hle, KeyChain.chainAt_succ]
      · intro k s h
        simp only [SenderReceiver.commit, get_putAll_walk] at h ⊢
        split at h
        · rename_i hk
          cases h
          refine ⟨?_, by omega⟩
          rw [hkey, KeyChain.keyAt, KeyChain.chainAt_add, KeyChain.keyAt, Nat.add_sub_cancel' hk.1]
        · obtain ⟨hkey', hlt⟩ := hr.skipped k s h
          exact ⟨hkey', by omega⟩

/-- The receiver can still open counter `k`, age and the skip bound aside. -/
def Ahead (r : SenderReceiver S) (k : Nat) : Prop := r.n ≤ k ∨ (r.skipped.get k).isSome

instance (r : SenderReceiver S) (k : Nat) : Decidable (Ahead r k) := inferInstanceAs (Decidable (_ ∨ _))

theorem ahead_iff : Ahead r k ↔ r.n ≤ k ∨ ∃ s, r.skipped.get k = some s := by
  rw [Ahead, Option.isSome_iff_exists]

theorem Ahead.of_prune {t : Time} (h : Ahead (r.prune o t) k) : Ahead r k := by
  rw [ahead_iff] at h ⊢
  obtain h | ⟨s, h⟩ := h
  · exact Or.inl h
  · exact Or.inr ⟨s, (get_prune.mp h).1⟩

theorem ahead_make {key : S.Key} {c : Nat} : Ahead (make key c : SenderReceiver S) k ↔ c ≤ k := by
  rw [ahead_iff]
  simp [SenderReceiver.make]

theorem lt_of_not_ahead (h : ¬Ahead r k) : k < r.n := by
  rw [Ahead] at h
  omega

theorem ahead_of_start {c : Candidate S.Key} (hs : r.start o n = .ok c) : Ahead r n := by
  rw [ahead_iff]
  rcases start_ok.mp hs with ⟨s, hg, -⟩ | ⟨-, hle, -⟩
  · exact Or.inr ⟨s, hg⟩
  · exact Or.inl hle

/-- Opening a counter takes it away, and gives no other back. -/
theorem ahead_commit (hr : r.Ordered) {c : Candidate S.Key} (hc : Fits r n c) {t : Time}
    (h : Ahead (r.commit c n t) k) : Ahead r k ∧ k ≠ n := by
  rw [ahead_iff] at h ⊢
  cases c with
  | stashed =>
      have hn : n < r.n := hc
      obtain h | ⟨s, h⟩ := h
      · have h' : r.n ≤ k := h
        exact ⟨Or.inl h', by omega⟩
      · obtain ⟨hne, h⟩ := OrdMap.get_delete_some h
        exact ⟨Or.inr ⟨s, h⟩, hne⟩
  | ahead key start =>
      obtain ⟨rfl, hle⟩ := hc
      obtain h | ⟨s, h⟩ := h
      · have h' : n + 1 ≤ k := h
        exact ⟨Or.inl (by omega), by omega⟩
      · simp only [SenderReceiver.commit, get_putAll_walk] at h
        split at h
        · rename_i hk
          exact ⟨Or.inl hk.1, by omega⟩
        · have hlt := hr k s h
          exact ⟨Or.inr ⟨s, h⟩, by omega⟩

/-! ## What a receiver opens -/

/-- The receiver has the key of counter `n`, or would walk to it. -/
def Openable (o : ReceiverOpts) (r : SenderReceiver S) (t : Time) (n : Nat) : Prop :=
  (∃ s, (r.prune o t).skipped.get n = some s) ∨ r.n ≤ n ∧ n - r.n ≤ o.maxSkip

theorem openable_iff {t : Time} : Openable o r t n ↔ ∃ c, (r.prune o t).start o n = .ok c := by
  simp only [start_ok, Openable]
  constructor
  · rintro (⟨s, hs⟩ | ⟨hle, hskip⟩)
    · exact ⟨_, Or.inl ⟨s, hs, rfl⟩⟩
    · cases hg : (r.prune o t).skipped.get n with
      | some s => exact ⟨_, Or.inl ⟨s, rfl, rfl⟩⟩
      | none => exact ⟨_, Or.inr ⟨rfl, hle, hskip, rfl⟩⟩
  · rintro ⟨c, ⟨s, hs, -⟩ | ⟨-, hle, hskip, -⟩⟩
    · exact Or.inl ⟨s, hs⟩
    · exact Or.inr ⟨hle, hskip⟩

/-- What opens under the chain's key for its counter is opened by a receiver that can reach the counter. -/
theorem openAt_ok {opens : Open S} {t t' : Time} {header ct pt : Bytes} (hr : Tracks ck r)
    (ho : Openable o r t n)
    (hpt : opens (S.chain.keyAt ck n) (S.aeadNonce (S.chain.keyAt ck n) (Bytes.u32be n)) header ct = some pt) :
    (r.openAt o opens t t' n header ct).2 = .ok pt := by
  obtain ⟨c, hc⟩ := openable_iff.mp ho
  have hkey := (hr.prune t).keyAt hc
  simp only [openAt, hc, tryOpen, hkey, hpt]

theorem Tracks.openAt (hr : Tracks ck r) (opens : Open S) (t t' : Time) (header ct : Bytes) :
    Tracks ck (r.openAt o opens t t' n header ct).1 := by
  unfold SenderReceiver.openAt
  cases hs : (r.prune o t).start o n with
  | error e => simpa only [hs] using hr.prune t
  | ok c =>
      simp only [hs]
      split
      · exact hr.prune t
      · exact (hr.prune t).commit ((hr.prune t).ordered.fits hs) ((hr.prune t).onChain hs) t'

theorem openAt_cases (o : ReceiverOpts) (opens : Open S) (r : SenderReceiver S) (t t' : Time) (n : Nat)
    (header ct : Bytes) : (r.openAt o opens t t' n header ct).1 = r.prune o t ∨
      ∃ c, (r.prune o t).start o n = .ok c ∧ (r.openAt o opens t t' n header ct).1 = (r.prune o t).commit c n t' := by
  unfold SenderReceiver.openAt
  cases hs : (r.prune o t).start o n with
  | error e => simp [hs]
  | ok c =>
      simp only [hs]
      split
      · exact Or.inl rfl
      · exact Or.inr ⟨c, rfl, rfl⟩

theorem Ordered.openAt (hr : r.Ordered) (opens : Open S) (t t' : Time) (header ct : Bytes) :
    (r.openAt o opens t t' n header ct).1.Ordered := by
  obtain h | ⟨c, hs, h⟩ := openAt_cases o opens r t t' n header ct <;> rw [h]
  · exact hr.prune t
  · exact (hr.prune t).commit ((hr.prune t).fits hs) t'

/-- Whatever is opened, the receiver goes forward on its chain. -/
theorem openAt_moves (o : ReceiverOpts) (opens : Open S) (r : SenderReceiver S) (t t' : Time) (n : Nat)
    (header ct : Bytes) : ∃ d, (r.openAt o opens t t' n header ct).1.n = r.n + d ∧
      (r.openAt o opens t t' n header ct).1.key = S.chain.chainAt r.key d := by
  obtain h | ⟨c, hs, h⟩ := openAt_cases o opens r t t' n header ct <;> rw [h]
  · exact ⟨0, rfl, rfl⟩
  · obtain ⟨s, -, rfl⟩ | ⟨-, hle, -, rfl⟩ := start_ok.mp hs
    · exact ⟨0, rfl, rfl⟩
    · have hle : r.n ≤ n := hle
      refine ⟨n - r.n + 1, ?_, ?_⟩
      · rw [← Nat.add_assoc, Nat.add_sub_cancel' hle]
        rfl
      · simp only [SenderReceiver.commit, KeyChain.walk_snd]
        exact (KeyChain.chainAt_succ ..).symm

end SenderReceiver

/-! ## A symbolic suite

Keys are the terms that derived them. -/

namespace Symbolic

inductive Key where
  | secret (n : Nat)
  | message (ck : Key)
  | next (ck : Key)
  deriving DecidableEq

def suite : Suite where
  Key := Key
  Nonce := Bytes
  chain := ⟨.message, .next⟩
  aeadNonce _ n := n
  aeadSeal _ _ _ pt := pt ++ List.replicate 16 0

/-- A chain starts from a random secret. -/
def Start (k : Key) : Prop := ∃ n, k = .secret n

theorem ideal : suite.chain.Ideal Start where
  messageKey_inj h := Key.message.inj h
  chainNext_inj h := Key.next.inj h
  chainNext_not_start := by
    rintro a ⟨n, h⟩
    cases h

end Symbolic

end EncedoChat.Group
