import EncedoChat.Lib.OrdMap
import EncedoChat.Eh2.Header

/-!
# The skipped-key store

`SkippedKeys` of `eh2/ratchet.ts`: message keys derived for messages that were overtaken, by the
chain's public key and the message number, bounded in chains and in age. The source keys the outer
map by the base64 text of the public key; the model keys it by the key itself.
-/

namespace EncedoChat.Eh2

/-- A clock reading in milliseconds. -/
abbrev Time := Int

structure Skipped (K : Type) where
  key : K
  ts : Time

structure SkippedKeys (K : Type) where
  /-- chain pub -> (n -> key) -/
  chains : OrdMap Pub (OrdMap Nat (Skipped K))

namespace SkippedKeys

variable {K : Type}

def empty : SkippedKeys K := ⟨.empty⟩

def put (maxChains : Nat) (s : SkippedKeys K) (dhPub : Pub) (n : Nat) (mk : K) (now : Time) :
    SkippedKeys K :=
  match s.chains.get dhPub with
  | some chain => ⟨s.chains.set dhPub (chain.set n ⟨mk, now⟩)⟩
  | none =>
    let chains := (s.chains.set dhPub .empty).trim maxChains
    -- with `maxChains = 0` the new chain has just evicted itself and the key goes nowhere
    if chains.has dhPub then ⟨chains.set dhPub (OrdMap.empty.set n ⟨mk, now⟩)⟩ else ⟨chains⟩

/-- The entry of message `n` of a chain. -/
def entry (s : SkippedKeys K) (dhPub : Pub) (n : Nat) : Option (Skipped K) :=
  (s.chains.get dhPub).bind (·.get n)

def peek (s : SkippedKeys K) (dhPub : Pub) (n : Nat) : Option K := (s.entry dhPub n).map (·.key)

def drop (s : SkippedKeys K) (dhPub : Pub) (n : Nat) : SkippedKeys K :=
  match s.chains.get dhPub with
  | none => s
  | some chain =>
    if (chain.delete n).size = 0 then ⟨s.chains.delete dhPub⟩
    else ⟨s.chains.set dhPub (chain.delete n)⟩

def prune (ttlMs : Time) (s : SkippedKeys K) (now : Time) : SkippedKeys K :=
  ⟨(s.chains.map fun _ chain => chain.filter fun _ e => !decide (now - e.ts > ttlMs)).filter
    fun _ chain => chain.size != 0⟩

def size (s : SkippedKeys K) : Nat := (s.chains.entries.map fun e => e.2.size).sum

/-- Put keys under consecutive message numbers, from `n` on. -/
def putAll (maxChains : Nat) (dhPub : Pub) (now : Nat → Time) :
    SkippedKeys K → Nat → List K → SkippedKeys K
  | s, _, [] => s
  | s, n, k :: ks => putAll maxChains dhPub now (s.put maxChains dhPub n k (now n)) (n + 1) ks

/-! ## What each operation does to an entry -/

theorem entry_put {maxChains : Nat} {s : SkippedKeys K} {dhPub p : Pub} {n m : Nat} {mk : K}
    {now : Time} {e : Skipped K} (h : (s.put maxChains dhPub n mk now).entry p m = some e) :
    (p = dhPub ∧ m = n ∧ e = ⟨mk, now⟩) ∨ s.entry p m = some e := by
  unfold put at h
  cases hg : s.chains.get dhPub with
  | some chain =>
      simp only [hg, entry, OrdMap.get_set] at h
      by_cases hp : p = dhPub
      · subst hp
        simp only [if_true, Option.bind_some, OrdMap.get_set] at h
        by_cases hm : m = n
        · subst hm; simp at h; exact Or.inl ⟨rfl, rfl, h.symm⟩
        · rw [if_neg hm] at h; exact Or.inr (by simp [entry, hg, h])
      · rw [if_neg hp] at h; exact Or.inr h
  | none =>
      simp only [hg] at h
      have old : ∀ c, ((s.chains.set dhPub OrdMap.empty).trim maxChains).get p = some c →
          c.get m = some e → s.entry p m = some e := by
        intro c hc hm
        have hc' := OrdMap.get_trim hc
        rw [OrdMap.get_set] at hc'
        by_cases hp : p = dhPub
        · rw [if_pos hp] at hc'; cases hc'; simp at hm
        · rw [if_neg hp] at hc'; simp [entry, hc', hm]
      split at h
      · simp only [entry, OrdMap.get_set] at h
        by_cases hp : p = dhPub
        · subst hp
          simp only [if_true, Option.bind_some, OrdMap.get_set, OrdMap.get_empty] at h
          by_cases hm : m = n
          · subst hm; simp at h; exact Or.inl ⟨rfl, rfl, h.symm⟩
          · simp [hm] at h
        · rw [if_neg hp] at h
          obtain ⟨c, hc, hm⟩ := Option.bind_eq_some_iff.mp h
          exact Or.inr (old c hc hm)
      · obtain ⟨c, hc, hm⟩ := Option.bind_eq_some_iff.mp h
        exact Or.inr (old c hc hm)

/-- With room for one chain at least, the key just put is there and its chain loses nothing. -/
theorem entry_put_same {maxChains : Nat} (hmax : 0 < maxChains) (s : SkippedKeys K) (dhPub : Pub)
    (n m : Nat) (mk : K) (now : Time) :
    (s.put maxChains dhPub n mk now).entry dhPub m
      = if m = n then some ⟨mk, now⟩ else s.entry dhPub m := by
  unfold put
  cases hg : s.chains.get dhPub with
  | some chain => by_cases hm : m = n <;> simp [entry, hg, OrdMap.get_set, hm]
  | none =>
      have hin : ((s.chains.set dhPub OrdMap.empty).trim maxChains).has dhPub = true := by
        simp [OrdMap.has, OrdMap.get_trim_set_new hmax hg]
      by_cases hm : m = n <;> simp [entry, hg, hin, OrdMap.get_set, hm]

theorem entry_drop (s : SkippedKeys K) (dhPub p : Pub) (n m : Nat) :
    (s.drop dhPub n).entry p m = if p = dhPub ∧ m = n then none else s.entry p m := by
  unfold drop
  cases hg : s.chains.get dhPub with
  | none =>
      by_cases h : p = dhPub ∧ m = n
      · rw [if_pos h]; simp [entry, h.1, hg]
      · rw [if_neg h]
  | some chain =>
      by_cases hp : p = dhPub
      · subst hp
        have hentry : s.entry p m = chain.get m := by simp [entry, hg]
        rw [hentry]
        by_cases hz : (chain.delete n).size = 0
        · have hnil : (chain.delete n).entries = [] := List.length_eq_zero_iff.mp hz
          have hnone : (chain.delete n).get m = none := by
            rw [OrdMap.get_eq_none]; simp [OrdMap.keys, hnil]
          rw [OrdMap.get_delete] at hnone
          simpa [hz, entry] using hnone.symm
        · simp [hz, entry, OrdMap.get_delete]
      · by_cases hz : (chain.delete n).size = 0
        · simp [hz, entry, hp, OrdMap.get_delete]
        · simp [hz, entry, hp, OrdMap.get_set]

theorem entry_prune {ttlMs : Time} {s : SkippedKeys K} {now : Time} {p : Pub} {n : Nat}
    {e : Skipped K} :
    (s.prune ttlMs now).entry p n = some e ↔ s.entry p n = some e ∧ now - e.ts ≤ ttlMs := by
  simp only [entry, prune, Option.bind_eq_some_iff, OrdMap.get_filter, OrdMap.get_map,
    Option.map_eq_some_iff]
  constructor
  · rintro ⟨_, ⟨⟨c, hc, rfl⟩, -⟩, hn⟩
    rw [OrdMap.get_filter] at hn
    exact ⟨⟨c, hc, hn.1⟩, by simpa using hn.2⟩
  · rintro ⟨⟨c, hc, hn⟩, hle⟩
    have hn' : (c.filter fun _ e => !decide (now - e.ts > ttlMs)).get n = some e :=
      OrdMap.get_filter.mpr ⟨hn, by simpa using hle⟩
    refine ⟨_, ⟨⟨c, hc, rfl⟩, ?_⟩, hn'⟩
    have hmem := OrdMap.get_eq_some.mp hn'
    simp only [OrdMap.size, bne_iff_ne, ne_eq, List.length_eq_zero_iff]
    exact List.ne_nil_of_mem hmem

theorem entry_putAll {maxChains : Nat} {dhPub p : Pub} {now : Nat → Time} {mks : List K}
    {s : SkippedKeys K} {n m : Nat} {e : Skipped K}
    (h : (putAll maxChains dhPub now s n mks).entry p m = some e) :
    (p = dhPub ∧ ∃ i, m = n + i ∧ mks[i]? = some e.key) ∨ s.entry p m = some e := by
  induction mks generalizing s n with
  | nil => exact Or.inr h
  | cons k ks ih =>
      rcases ih h with ⟨hp, i, hi, hmk⟩ | h'
      · exact Or.inl ⟨hp, i + 1, by omega, by simpa using hmk⟩
      · rcases entry_put h' with ⟨hp, hm, rfl⟩ | h''
        · exact Or.inl ⟨hp, 0, by omega, rfl⟩
        · exact Or.inr h''

/-- With room for one chain, every key put is there, and the rest of its chain with it. -/
theorem entry_putAll_same {maxChains : Nat} (hmax : 0 < maxChains) {dhPub : Pub} {now : Nat → Time}
    {mks : List K} {s : SkippedKeys K} {n m : Nat} :
    (m < n ∨ n + mks.length ≤ m → (putAll maxChains dhPub now s n mks).entry dhPub m = s.entry dhPub m)
    ∧ (n ≤ m → ∀ mk, mks[m - n]? = some mk →
        ∃ e, (putAll maxChains dhPub now s n mks).entry dhPub m = some e ∧ e.key = mk) := by
  induction mks generalizing s n with
  | nil => exact ⟨fun _ => rfl, fun _ mk h => by simp at h⟩
  | cons k ks ih =>
      obtain ⟨hout, hin⟩ := ih (s := s.put maxChains dhPub n k (now n)) (n := n + 1)
      constructor
      · intro h
        simp only [List.length_cons] at h
        rw [putAll, hout (by omega), entry_put_same hmax, if_neg (by omega)]
      · intro hle mk hmk
        rcases Nat.eq_or_lt_of_le hle with rfl | hlt
        · simp only [Nat.sub_self, List.getElem?_cons_zero, Option.some.injEq] at hmk
          subst hmk
          rw [putAll, hout (by omega), entry_put_same hmax, if_pos rfl]
          exact ⟨_, rfl, rfl⟩
        · obtain ⟨d, hd⟩ : ∃ d, m - n = d + 1 := ⟨m - n - 1, by omega⟩
          rw [hd, List.getElem?_cons_succ] at hmk
          exact hin (by omega) mk (by rwa [show m - (n + 1) = d by omega])

theorem peek_eq_some {s : SkippedKeys K} {p : Pub} {n : Nat} {mk : K} :
    s.peek p n = some mk ↔ ∃ e, s.entry p n = some e ∧ e.key = mk := by
  simp [peek]

end SkippedKeys

end EncedoChat.Eh2
