import EncedoChat.Core.Skipped
import EncedoChat.Group.SenderKey
import EncedoChat.Lib.Run

/-!
# The sender keys of the Rust core

`SenderReceiver` of `core-rs/src/senderkey.rs` beside that of `lib/senderkey.ts`, over the same primitives. A call reads
the clock once here, and twice there: as it begins, and once the frame has opened.
-/

namespace EncedoChat.Core.SenderKey

open EncedoChat.Group (Suite Open ReceiverOpts Refusal Stashed Time Candidate putAll)

variable {S : Suite}

inductive SenderKeyError where
  | skipBound (asked : Nat)

structure Bounds where
  maxSkip : UInt32 := 2000
  ttlMs : UInt64 := 24 * 60 * 60 * 1000

/-- Of the `BTreeMap` nothing but its lookups and its members is read. -/
structure SenderReceiver (S : Suite) where
  key : S.Key
  n : Nat
  skipped : OrdMap Nat (S.Key × Nat)

namespace SenderReceiver

def at' (chainKey : S.Key) (n : UInt32) : SenderReceiver S := ⟨chainKey, n.toNat, .empty⟩

/-- `now.saturating_sub(ts)` is the subtraction of numbers. -/
def prune (b : Bounds) (r : SenderReceiver S) (now : Nat) : SenderReceiver S :=
  { r with skipped := r.skipped.filter fun _ e => decide (now - e.2 ≤ b.ttlMs.toNat) }

def openBody (opens : Open S) (mk : S.Key) (n : Nat) (header ct : Bytes) : Option Bytes :=
  opens mk (S.aeadNonce mk (Bytes.u32be n)) header ct

/-- `for i in self.n..n`: the keys passed over, and the chain key arrived at. -/
def passOver {K : Type} (C : KeyChain K) (cur : K) (i : Nat) : Nat → List (Nat × K) × K
  | 0 => ([], cur)
  | d + 1 =>
    let rest := passOver C (C.chainNext cur) (i + 1) d
    ((i, C.messageKey cur) :: rest.1, rest.2)

def open' (b : Bounds) (opens : Open S) (r : SenderReceiver S) (now n : Nat) (header ct : Bytes) :
    SenderReceiver S × Except SenderKeyError (Option Bytes) :=
  let r := r.prune b now
  match r.skipped.get n with
  | some e =>
    let pt := openBody opens e.1 n header ct
    (if pt.isSome then { r with skipped := r.skipped.delete n } else r, .ok pt)
  | none =>
    if n < r.n then (r, .ok none)
    else if n - r.n > b.maxSkip.toNat then (r, .error (.skipBound (n - r.n)))
    else
      let passed := passOver S.chain r.key r.n (n - r.n)
      let mkN := S.chain.messageKey passed.2
      let nextCk := S.chain.chainNext passed.2
      match openBody opens mkN n header ct with
      | none => (r, .ok none)
      | some pt =>
        -- the last counter of a `u32` is followed by the first
        ({ key := nextCk
           n := u32 (n + 1)
           skipped := passed.1.foldl (fun m p => m.set p.1 (p.2, now)) r.skipped }, .ok (some pt))

end SenderReceiver

/-! ## Side by side -/

/-- The bounds as the other receiver takes them. -/
def Bounds.ts (b : Bounds) : ReceiverOpts := ⟨b.maxSkip.toNat, b.ttlMs.toNat⟩

inductive Outcome where
  | plaintext (pt : Bytes)
  | null
  | skipBound (asked : Nat)
  deriving DecidableEq

def ofTs : Except Refusal Bytes → Outcome
  | .ok pt => .plaintext pt
  | .error .null => .null
  | .error (.skipBound asked _) => .skipBound asked

def ofCore : Except SenderKeyError (Option Bytes) → Outcome
  | .ok (some pt) => .plaintext pt
  | .ok none => .null
  | .error (.skipBound asked) => .skipBound asked

/-- What a call returns, and the position and the counters that are set aside after it. -/
structure Shown where
  outcome : Outcome
  position : Nat
  skipped : Nat → Bool

structure Call where
  /-- the clock as the call begins -/
  now : Nat
  /-- and once its frame has opened -/
  now' : Nat
  n : UInt32
  header : Bytes
  ct : Bytes

/-- The clock stands still while the call is made. -/
def Call.still (c : Call) : Call := { c with now' := c.now }

def callTs (b : Bounds) (opens : Open S) (s : Group.SenderReceiver S) (c : Call) : Group.SenderReceiver S × Shown :=
  let r := s.openAt b.ts opens c.now c.now' c.n.toNat c.header c.ct
  (r.1, ⟨ofTs r.2, r.1.n, r.1.skipped.has⟩)

def callCore (b : Bounds) (opens : Open S) (r : SenderReceiver S) (c : Call) : SenderReceiver S × Shown :=
  let r := r.open' b opens c.now c.n.toNat c.header c.ct
  (r.1, ⟨ofCore r.2, r.1.n, r.1.skipped.has⟩)

/-- No key is set aside for the frame, and it opens under the key that the walk to its counter ends at. -/
structure OpensAhead (b : Bounds) (opens : Open S) (s : Group.SenderReceiver S) (c : Call) : Prop where
  fresh : (s.prune b.ts c.now).skipped.get c.n.toNat = none
  ahead : s.n ≤ c.n.toNat
  near : c.n.toNat - s.n ≤ b.maxSkip.toNat
  opens : (Group.SenderReceiver.tryOpen opens (.ahead s.key s.n) c.n.toNat c.header c.ct).isSome

/-- What the two answer alike: no key that both have is too old for one of them only, and no frame leads past the last
counter. -/
structure CallOk (b : Bounds) (opens : Open S) (p : SenderReceiver S × Group.SenderReceiver S) (c : Call) : Prop where
  aged : ∀ k x y, p.1.skipped.get k = some x → p.2.skipped.get k = some y →
    (c.now - x.2 ≤ b.ttlMs.toNat ↔ (c.now : Time) - y.ts ≤ b.ttlMs.toNat)
  counted : c.n.toNat + 1 = 2 ^ 32 → ¬ OpensAhead b opens p.2 c

/-! ## The same receiver -/

namespace SenderReceiver

/-- The receiver as the other keeps it. -/
def view (r : SenderReceiver S) : Group.SenderReceiver S := ⟨r.key, r.n, r.skipped.map fun _ e => ⟨e.1, e.2⟩⟩

variable {b : Bounds} {r : SenderReceiver S}

theorem get_view (r : SenderReceiver S) (k : Nat) : r.view.skipped.get k = (r.skipped.get k).map fun e => ⟨e.1, e.2⟩ :=
  OrdMap.get_map ..

theorem has_view (r : SenderReceiver S) : r.view.skipped.has = r.skipped.has := by
  funext k
  rw [OrdMap.has, get_view, Option.isSome_map, OrdMap.has]

theorem view_prune (b : Bounds) (r : SenderReceiver S) (now : Nat) : (r.prune b now).view = r.view.prune b.ts now := by
  have hold : (fun (_ : Nat) (e : S.Key × Nat) => !decide ((now : Time) - (e.2 : Time) > (b.ttlMs.toNat : Time))) =
      fun _ e => decide (now - e.2 ≤ b.ttlMs.toNat) := by
    funext _ e
    have hle : ¬ (now : Time) - (e.2 : Time) > (b.ttlMs.toNat : Time) ↔ now - e.2 ≤ b.ttlMs.toNat := by
      unfold Time
      omega
    rw [← decide_not, decide_eq_decide]
    exact hle
  have hmap := OrdMap.filter_map r.skipped (fun _ e => (⟨e.1, e.2⟩ : Stashed S.Key))
    fun _ e => !decide ((now : Time) - e.ts > (b.ttlMs.toNat : Time))
  dsimp only at hmap
  rw [hold] at hmap
  exact congrArg (Group.SenderReceiver.mk r.key r.n) hmap.symm

theorem passOver_snd {K : Type} (C : KeyChain K) (cur : K) (i d : Nat) : (passOver C cur i d).2 = (C.walk cur d).2 := by
  induction d generalizing cur i with
  | zero => rfl
  | succ d ih => exact ih (C.chainNext cur) (i + 1)

theorem map_passOver {K : Type} (C : KeyChain K) (cur : K) (i d now : Nat) (m : OrdMap Nat (K × Nat)) :
    ((passOver C cur i d).1.foldl (fun m p => m.set p.1 (p.2, now)) m).map (fun _ e => (⟨e.1, e.2⟩ : Stashed K)) =
      putAll now (m.map fun _ e => ⟨e.1, e.2⟩) i (C.walk cur d).1 := by
  induction d generalizing cur i m with
  | zero => rfl
  | succ d ih =>
      rw [passOver, KeyChain.walk, List.foldl_cons, ih, OrdMap.map_set]
      rfl

/-- The last counter is followed by the first. -/
def wrap (s : Group.SenderReceiver S) : Group.SenderReceiver S := { s with n := u32 s.n }

theorem wrap_of_lt {s : Group.SenderReceiver S} (h : s.n < 2 ^ 32) : wrap s = s := by
  rw [wrap, u32_of_lt h]

/-- The walk to a frame's counter ends at the key that the other walk ends at. -/
theorem tryOpen_view (opens : Open S) (r : SenderReceiver S) (n : Nat) (header ct : Bytes) :
    Group.SenderReceiver.tryOpen opens (.ahead r.view.key r.view.n) n header ct =
      openBody opens (S.chain.messageKey (passOver S.chain r.key r.n (n - r.n)).2) n header ct := by
  rw [passOver_snd, KeyChain.walk_snd]
  rfl

theorem view_commit (r : SenderReceiver S) (n now : Nat) :
    (⟨S.chain.chainNext (passOver S.chain r.key r.n (n - r.n)).2, u32 (n + 1),
        (passOver S.chain r.key r.n (n - r.n)).1.foldl (fun m p => m.set p.1 (p.2, now)) r.skipped⟩ :
      SenderReceiver S).view = wrap (r.view.commit (.ahead r.view.key r.view.n) n now) := by
  rw [view, map_passOver, passOver_snd]
  rfl

/-- With one reading of the clock the two do the same, but for the last counter. -/
theorem view_open (b : Bounds) (opens : Open S) (hn : r.n < 2 ^ 32) (now n : Nat) (header ct : Bytes) :
    ofCore (r.open' b opens now n header ct).2 = ofTs (r.view.openAt b.ts opens now now n header ct).2 ∧
      (r.open' b opens now n header ct).1.view = wrap (r.view.openAt b.ts opens now now n header ct).1 := by
  have hq : (r.prune b now).n < 2 ^ 32 := hn
  unfold open' Group.SenderReceiver.openAt
  dsimp only
  rw [← view_prune]
  generalize r.prune b now = q at hq ⊢
  have hwrap : q.view = wrap q.view := (wrap_of_lt hq).symm
  unfold Group.SenderReceiver.start
  rw [get_view]
  cases q.skipped.get n with
  | some e =>
      have htry : Group.SenderReceiver.tryOpen opens (.stashed e.1) n header ct = openBody opens e.1 n header ct := rfl
      rcases Option.eq_none_or_eq_some (openBody opens e.1 n header ct) with hpt | ⟨pt, hpt⟩
      · simp only [Option.map_some, htry, hpt]
        exact ⟨rfl, hwrap⟩
      · simp only [Option.map_some, htry, hpt]
        refine ⟨rfl, ?_⟩
        rw [wrap_of_lt (by exact hq)]
        exact congrArg (Group.SenderReceiver.mk q.key q.n) (OrdMap.map_delete ..)
  | none =>
      dsimp only [Option.map_none]
      by_cases hlt : n < q.n
      · rw [if_pos hlt, if_pos (show n < q.view.n from hlt)]
        exact ⟨rfl, hwrap⟩
      · rw [if_neg hlt, if_neg (show ¬ n < q.view.n from hlt)]
        by_cases hskip : n - q.n > b.maxSkip.toNat
        · rw [if_pos hskip, if_pos (show n - q.view.n > b.ts.maxSkip from hskip)]
          exact ⟨rfl, hwrap⟩
        · rw [if_neg hskip, if_neg (show ¬ n - q.view.n > b.ts.maxSkip from hskip)]
          have htry := tryOpen_view opens q n header ct
          rcases Option.eq_none_or_eq_some
            (openBody opens (S.chain.messageKey (passOver S.chain q.key q.n (n - q.n)).2) n header ct) with hpt | ⟨pt, hpt⟩
          · simp only [htry, hpt]
            exact ⟨rfl, hwrap⟩
          · simp only [htry, hpt]
            exact ⟨rfl, view_commit q n now⟩

end SenderReceiver

/-! ## Two receivers with other stamps -/

section Twins

variable {o : ReceiverOpts} {opens : Open S} {a s : Group.SenderReceiver S} {t t₁ t₂ : Time} {n k : Nat} {header ct : Bytes}

/-- The two stand at one position and have the same keys set aside, at whatever times. -/
structure Twin (a s : Group.SenderReceiver S) : Prop where
  key : a.key = s.key
  n : a.n = s.n
  skipped : ∀ k, (a.skipped.get k).map Stashed.key = (s.skipped.get k).map Stashed.key

theorem Twin.has (h : Twin a s) : a.skipped.has = s.skipped.has := by
  funext k
  have hk := congrArg Option.isSome (h.skipped k)
  rwa [Option.isSome_map, Option.isSome_map] at hk

theorem Twin.start (h : Twin a s) (n : Nat) : a.start o n = s.start o n := by
  have hk := h.skipped n
  unfold Group.SenderReceiver.start
  rw [h.key, h.n]
  cases ha : a.skipped.get n with
  | none =>
      rw [ha, Option.map_none, eq_comm, Option.map_eq_none_iff] at hk
      rw [hk]
  | some x =>
      rw [ha, Option.map_some, eq_comm, Option.map_eq_some_iff] at hk
      obtain ⟨y, hy, hkey⟩ := hk
      rw [hy]
      dsimp only
      rw [hkey]

theorem Twin.commit (h : Twin a s) (c : Candidate S.Key) (n : Nat) (t₁ t₂ : Time) :
    Twin (a.commit c n t₁) (s.commit c n t₂) := by
  cases c with
  | stashed mk =>
      refine ⟨h.key, h.n, fun k => ?_⟩
      dsimp only [Group.SenderReceiver.commit]
      rw [OrdMap.get_delete, OrdMap.get_delete]
      split
      · rfl
      · exact h.skipped k
  | ahead key start =>
      refine ⟨rfl, rfl, fun k => ?_⟩
      dsimp only [Group.SenderReceiver.commit]
      rw [Group.get_putAll_walk, Group.get_putAll_walk]
      split
      · rfl
      · exact h.skipped k

theorem has_prune : (s.prune o t).skipped.has k = true ↔ ∃ x, s.skipped.get k = some x ∧ t - x.ts ≤ o.ttlMs := by
  rw [OrdMap.has, Option.isSome_iff_exists]
  exact exists_congr fun x => Group.SenderReceiver.get_prune

theorem get_prune_of_has (h : (s.prune o t).skipped.has k = true) : (s.prune o t).skipped.get k = s.skipped.get k := by
  obtain ⟨x, hx, hle⟩ := has_prune.mp h
  rw [hx]
  exact Group.SenderReceiver.get_prune.mpr ⟨hx, hle⟩

theorem Twin.prune (h : Twin a s) (hhas : ∀ k, (a.prune o t).skipped.has k = true ↔ (s.prune o t).skipped.has k = true) :
    Twin (a.prune o t) (s.prune o t) := by
  refine ⟨h.key, h.n, fun k => ?_⟩
  cases ha : (a.prune o t).skipped.has k with
  | true =>
      rw [get_prune_of_has ha, get_prune_of_has ((hhas k).mp ha)]
      exact h.skipped k
  | false =>
      have hs : (s.prune o t).skipped.has k = false := by
        rw [← Bool.not_eq_true, ← hhas k, ha]
        exact Bool.false_ne_true
      rw [OrdMap.has, Option.isSome_eq_false_iff, Option.isNone_iff_eq_none] at ha hs
      rw [ha, hs]

variable (opens t₁ t₂ n header ct) in
/-- Pruned alike, they open alike. -/
theorem Twin.openAt (h : Twin (a.prune o t) (s.prune o t)) :
    (a.openAt o opens t t₁ n header ct).2 = (s.openAt o opens t t₂ n header ct).2 ∧
      Twin (a.openAt o opens t t₁ n header ct).1 (s.openAt o opens t t₂ n header ct).1 := by
  unfold Group.SenderReceiver.openAt
  dsimp only
  rw [h.start n]
  cases (s.prune o t).start o n with
  | error e => exact ⟨rfl, h⟩
  | ok c =>
      dsimp only
      split
      · exact ⟨rfl, h⟩
      · exact ⟨rfl, h.commit c n t₁ t₂⟩

variable (o opens t t₁ n header ct) in
/-- Of the counters gone past, an opening takes its own away and no other. -/
theorem has_openAt (hk : k < s.n) : (s.openAt o opens t t₁ n header ct).1.skipped.has k = true ↔
    (s.prune o t).skipped.has k = true ∧ ¬ (k = n ∧ ∃ pt, (s.openAt o opens t t₁ n header ct).2 = .ok pt) := by
  unfold Group.SenderReceiver.openAt
  dsimp only
  cases hs : (s.prune o t).start o n with
  | error e => simp
  | ok c =>
      dsimp only
      split
      · simp
      case h_2 pt hpt =>
        rcases Group.SenderReceiver.start_ok.mp hs with ⟨x, hx, rfl⟩ | ⟨-, hle, -, rfl⟩
        · dsimp only [Group.SenderReceiver.commit]
          rw [OrdMap.has_delete]
          by_cases hkn : k = n <;> simp [hkn]
        · have hne : k ≠ n := (Nat.lt_of_lt_of_le hk hle).ne
          have hlt : ¬ s.n ≤ k := Nat.not_le.mpr hk
          have hget : ((s.prune o t).commit (.ahead (s.prune o t).key (s.prune o t).n) n t₁).skipped.get k =
              (s.prune o t).skipped.get k := by
            dsimp only [Group.SenderReceiver.commit]
            rw [Group.get_putAll_walk, if_neg fun hin => hlt hin.1]
          rw [OrdMap.has, hget, ← OrdMap.has]
          simp [hne]

/-- Of a counter gone past only a key set aside opens a frame. -/
theorem held_of_ok (hn : n < s.n) {pt : Bytes} (h : (s.openAt o opens t t₁ n header ct).2 = .ok pt) :
    (s.prune o t).skipped.has n = true := by
  unfold Group.SenderReceiver.openAt at h
  dsimp only at h
  cases hs : (s.prune o t).start o n with
  | error e =>
      rw [hs] at h
      cases h
  | ok c =>
      rcases Group.SenderReceiver.start_ok.mp hs with ⟨x, hx, -⟩ | ⟨-, hle, -, -⟩
      · exact OrdMap.has_of_get hx
      · exact absurd hn (Nat.not_lt.mpr hle)

/-- What both show alike was pruned alike. -/
theorem Twin.pruned (h : Twin a s) (ha : a.Ordered) (hs : s.Ordered)
    (hout : (∃ pt, (a.openAt o opens t t₁ n header ct).2 = .ok pt) ↔ ∃ pt, (s.openAt o opens t t₂ n header ct).2 = .ok pt)
    (hhas : (a.openAt o opens t t₁ n header ct).1.skipped.has = (s.openAt o opens t t₂ n header ct).1.skipped.has)
    (k : Nat) : (a.prune o t).skipped.has k = true ↔ (s.prune o t).skipped.has k = true := by
  by_cases hk : k < s.n
  · have hk' : k < a.n := h.n ▸ hk
    have hleft := has_openAt o opens t t₁ n header ct hk'
    have hright := has_openAt o opens t t₂ n header ct hk
    rw [hhas, hright, hout] at hleft
    by_cases htaken : k = n ∧ ∃ pt, (s.openAt o opens t t₂ n header ct).2 = .ok pt
    · obtain ⟨rfl, hok⟩ := htaken
      obtain ⟨pt, hpt⟩ := hout.mpr hok
      obtain ⟨pt', hpt'⟩ := hok
      exact iff_of_true (held_of_ok hk' hpt) (held_of_ok hk hpt')
    · exact ⟨fun hin => (hleft.mpr ⟨hin, htaken⟩).1, fun hin => (hleft.mp ⟨hin, htaken⟩).1⟩
  · refine iff_of_false (fun hin => ?_) fun hin => ?_
    · obtain ⟨x, hx⟩ := Option.isSome_iff_exists.mp hin
      exact hk (h.n ▸ ha k x (Group.SenderReceiver.get_prune.mp hx).1)
    · obtain ⟨x, hx⟩ := Option.isSome_iff_exists.mp hin
      exact hk (hs k x (Group.SenderReceiver.get_prune.mp hx).1)

end Twins

/-! ## One call, and a run -/

variable {b : Bounds} {opens : Open S} {r : SenderReceiver S} {s : Group.SenderReceiver S}

theorem OpensAhead.start {c : Call} (h : OpensAhead b opens s c) :
    (s.prune b.ts c.now).start b.ts c.n.toNat = .ok (.ahead s.key s.n) :=
  Group.SenderReceiver.start_ok.mpr (.inr ⟨h.fresh, h.ahead, h.near, rfl⟩)

theorem n_openAt_ahead {c : Call} (h : OpensAhead b opens s c) : (callTs b opens s c).1.n = c.n.toNat + 1 := by
  obtain ⟨pt, hpt⟩ := Option.isSome_iff_exists.mp h.opens
  simp only [callTs, Group.SenderReceiver.openAt, h.start, hpt]
  rfl

theorem n_openAt_else {c : Call} (h : ¬ OpensAhead b opens s c) : (callTs b opens s c).1.n = s.n := by
  unfold callTs Group.SenderReceiver.openAt
  dsimp only
  cases hs : (s.prune b.ts c.now).start b.ts c.n.toNat with
  | error e => rfl
  | ok x =>
      dsimp only
      split
      · rfl
      case h_2 pt hpt =>
        rcases Group.SenderReceiver.start_ok.mp hs with ⟨y, hy, rfl⟩ | ⟨hfresh, hle, hnear, rfl⟩
        · rfl
        · exact absurd ⟨hfresh, hle, hnear, Option.isSome_iff_exists.mpr ⟨pt, hpt⟩⟩ h

/-- The position stays a `u32` unless the last counter is gone past. -/
theorem n_openAt_lt {c : Call} (hs : s.n < 2 ^ 32) :
    (callTs b opens s c).1.n < 2 ^ 32 ↔ (c.n.toNat + 1 = 2 ^ 32 → ¬ OpensAhead b opens s c) := by
  have hlt : c.n.toNat < 2 ^ 32 := c.n.toNat_lt
  by_cases h : OpensAhead b opens s c
  · rw [n_openAt_ahead h]
    simp only [h, not_true_eq_false, imp_false]
    omega
  · rw [n_openAt_else h]
    exact iff_of_true hs fun _ => h

/-- The two hold the same keys, at a position of a `u32`. -/
structure Alike (r : SenderReceiver S) (s : Group.SenderReceiver S) : Prop where
  twin : Twin r.view s
  small : s.n < 2 ^ 32
  ordered : s.Ordered

theorem Alike.ordered_view (h : Alike r s) : r.view.Ordered := by
  intro k x hx
  have hk := h.twin.skipped k
  rw [hx, Option.map_some, eq_comm, Option.map_eq_some_iff] at hk
  obtain ⟨y, hy, -⟩ := hk
  exact h.twin.n ▸ h.ordered k y hy

theorem ofTs_eq_plaintext {x : Except Refusal Bytes} {pt : Bytes} : ofTs x = .plaintext pt ↔ x = .ok pt := by
  cases x with
  | ok pt' => simp [ofTs]
  | error e => cases e <;> simp [ofTs]

theorem Alike.lt (h : Alike r s) : r.n < 2 ^ 32 := by
  have hn : r.n = s.n := h.twin.n
  rw [hn]
  exact h.small

variable (b opens) in
/-- A call as it is of the other kind of receiver, with one reading of the clock. -/
theorem callCore_eq (h : r.n < 2 ^ 32) (c : Call) :
    (callCore b opens r c).1.view = SenderReceiver.wrap (callTs b opens r.view c.still).1 ∧
      (callCore b opens r c).2 = { (callTs b opens r.view c.still).2 with
        position := u32 (callTs b opens r.view c.still).2.position } := by
  obtain ⟨hout, hview⟩ := SenderReceiver.view_open b opens h c.now c.n.toNat c.header c.ct
  refine ⟨hview, ?_⟩
  have hhas := SenderReceiver.has_view (callCore b opens r c).1
  rw [show (callCore b opens r c).1.view = _ from hview] at hhas
  exact (Shown.mk.injEq ..).mpr ⟨hout, congrArg Group.SenderReceiver.n hview, hhas.symm⟩

theorem Alike.aged_iff (h : Alike r s) (c : Call) : (∀ k x y, r.skipped.get k = some x → s.skipped.get k = some y →
    (c.now - x.2 ≤ b.ttlMs.toNat ↔ (c.now : Time) - y.ts ≤ b.ttlMs.toNat)) ↔
      ∀ k, (r.view.prune b.ts c.now).skipped.has k = true ↔ (s.prune b.ts c.now).skipped.has k = true := by
  refine forall_congr' fun k => ?_
  have hage : ∀ ts : Nat, (c.now : Time) - (ts : Time) ≤ b.ts.ttlMs ↔ c.now - ts ≤ b.ttlMs.toNat := by
    intro ts
    show (c.now : Int) - (ts : Int) ≤ (b.ttlMs.toNat : Int) ↔ _
    omega
  have hk := h.twin.skipped k
  rw [has_prune, has_prune]
  rw [SenderReceiver.get_view] at hk ⊢
  cases hx : r.skipped.get k with
  | none =>
      rw [hx, Option.map_none, Option.map_none, eq_comm, Option.map_eq_none_iff] at hk
      simp [hk]
  | some x =>
      rw [hx, Option.map_some, Option.map_some, eq_comm, Option.map_eq_some_iff] at hk
      obtain ⟨y, hy, -⟩ := hk
      simp only [hy, Option.map_some, Option.some.injEq, exists_eq_left', hage]
      constructor
      · exact fun haged => haged x y rfl rfl
      · rintro haged _ _ rfl rfl
        exact haged

theorem Alike.call (h : Alike r s) (c : Call) :
    ((callCore b opens r c).2 = (callTs b opens s c).2 ↔ CallOk b opens (r, s) c) ∧
      (CallOk b opens (r, s) c → Alike (callCore b opens r c).1 (callTs b opens s c).1) := by
  obtain ⟨hview, hshown⟩ := callCore_eq b opens h.lt c
  have hok : CallOk b opens (r, s) c → (callCore b opens r c).2 = (callTs b opens s c).2 ∧
      Alike (callCore b opens r c).1 (callTs b opens s c).1 := by
    rintro ⟨haged, hcounted⟩
    have hpruned := h.twin.prune ((h.aged_iff c).mp haged)
    obtain ⟨hout, htwin⟩ := hpruned.openAt opens c.now c.now' c.n.toNat c.header c.ct
    have hlt := (n_openAt_lt h.small).mpr hcounted
    have hlt' : (callTs b opens r.view c.still).1.n < 2 ^ 32 := lt_of_eq_of_lt htwin.n hlt
    constructor
    · rw [hshown]
      refine (Shown.mk.injEq ..).mpr ⟨congrArg ofTs hout, ?_, htwin.has⟩
      exact (u32_of_lt hlt').trans htwin.n
    · refine ⟨?_, hlt, h.ordered.openAt opens _ _ _ _⟩
      rw [hview, SenderReceiver.wrap_of_lt hlt']
      exact htwin
  refine ⟨⟨fun heq => ?_, fun hcall => (hok hcall).1⟩, fun hcall => (hok hcall).2⟩
  rw [hshown] at heq
  obtain ⟨hout, hn, hhas⟩ := (Shown.mk.injEq ..).mp heq
  constructor
  · refine (h.aged_iff c).mpr (h.twin.pruned h.ordered_view h.ordered (exists_congr fun pt => ?_) hhas)
    rw [← ofTs_eq_plaintext, ← ofTs_eq_plaintext]
    exact hout ▸ Iff.rfl
  · have hlt : (callTs b opens s c).1.n < 2 ^ 32 := lt_of_eq_of_lt hn.symm (u32_lt _)
    exact (n_openAt_lt h.small).mp hlt

/-- From one key, position and bounds, on one clock, the two return the same along a run, stand at the same position and
have the same counters set aside, exactly when no call has a key expire to one of them only, or goes past the last
counter. -/
theorem receivers_alike (b : Bounds) (opens : Open S) (key : S.Key) (n : UInt32) (cs : List Call) :
    outputs (callCore b opens) (.at' key n) cs = outputs (callTs b opens) (.make key n.toNat) cs ↔
      Admits (fun p c => ((callCore b opens p.1 c).1, (callTs b opens p.2 c).1)) (CallOk b opens)
        (.at' key n, .make key n.toNat) cs := by
  refine outputs_eq_iff_both (R := Alike) (fun r s c h => (h.call c).1) (fun r s c h => (h.call c).2) ?_ cs
  exact ⟨⟨rfl, rfl, fun _ => rfl⟩, n.toNat_lt, .make key n.toNat⟩

/-- On a clock that stands still during a call nothing but the last counter tells them apart. -/
theorem alike_where_still (b : Bounds) (opens : Open S) (key : S.Key) (n : UInt32) (cs : List Call) :
    outputs (fun r c => callCore b opens r c.still) (.at' key n) cs =
        outputs (fun s c => callTs b opens s c.still) (.make key n.toNat) cs ↔
      Admits (fun s c => (callTs b opens s c.still).1) (fun s c => c.n.toNat + 1 = 2 ^ 32 → ¬ OpensAhead b opens s c.still)
        (.make key n.toNat) cs := by
  refine outputs_eq_iff (R := fun r s => r.view = s ∧ s.n < 2 ^ 32) ?_ ?_ ⟨rfl, n.toNat_lt⟩ cs
  · rintro r - c ⟨rfl, hn⟩
    rw [(callCore_eq b opens hn c.still).2]
    refine Iff.trans ?_ (n_openAt_lt (c := c.still) hn)
    refine Iff.trans ?_ u32_eq_self
    exact ⟨fun heq => congrArg Shown.position heq, fun heq => (Shown.mk.injEq ..).mpr ⟨rfl, heq, rfl⟩⟩
  · rintro r - c ⟨rfl, hn⟩ hok
    have hlt := (n_openAt_lt (c := c.still) hn).mpr hok
    exact ⟨(callCore_eq b opens hn c.still).1.trans (SenderReceiver.wrap_of_lt hlt), hlt⟩

/-! ## Two runs that tell them apart -/

/-- The clock does not go back. -/
def Steady (cs : List Call) : Prop := (cs.flatMap fun c => [c.now, c.now']).Pairwise (· ≤ ·)

namespace Symbolic

open EncedoChat.Group.Symbolic (suite)

/-- The frame of a counter. -/
def sealedAt (n : Nat) : Box suite.Key suite.Nonce := Group.aeadBox (suite.chain.keyAt (.secret 0) n) n [] [7]

/-- The chain as it stands at its last counter, and the frame of that. -/
def lastBox : Box suite.Key suite.Nonce := Group.aeadBox (suite.chain.messageKey (.secret 0)) 0xFFFFFFFF [] [7]

def lastCall : List Call := [⟨0, 0, 0xFFFFFFFF, [], lastBox.ct⟩]

/-- The second frame takes five milliseconds to open, and the first comes a day and three milliseconds later. -/
def lateCalls : List Call := [⟨0, 5, 1, [], (sealedAt 1).ct⟩, ⟨86400003, 86400003, 0, [], (sealedAt 0).ct⟩]

/-- After the last counter the one stands at the first again; and a key set aside is too old for the one, and not for the
other. -/
theorem receivers_apart :
    (¬ ∀ cs, Steady cs →
      outputs (callCore (S := suite) {} (Box.openIn [lastBox])) (.at' (.secret 0) 0xFFFFFFFF) cs =
        outputs (callTs {} (Box.openIn [lastBox])) (.make (.secret 0) (0xFFFFFFFF : UInt32).toNat) cs) ∧
      ¬ ∀ cs, Steady cs →
        outputs (callCore (S := suite) {} (Box.openIn [sealedAt 0, sealedAt 1])) (.at' (.secret 0) 0) cs =
          outputs (callTs {} (Box.openIn [sealedAt 0, sealedAt 1])) (.make (.secret 0) (0 : UInt32).toNat) cs := by
  constructor
  · intro h
    have heq := congrArg (List.map Shown.position) (h lastCall (by simp [Steady, lastCall]))
    revert heq
    decide
  · intro h
    have heq := congrArg (List.map Shown.outcome) (h lateCalls (by simp [Steady, lateCalls]))
    revert heq
    decide

end Symbolic

end EncedoChat.Core.SenderKey
