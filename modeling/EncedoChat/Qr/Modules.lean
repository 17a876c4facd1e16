import EncedoChat.Lib.Bits
import EncedoChat.Qr.Standard
import Mathlib.Algebra.BigOperators.Group.Finset.Sigma

/-!
# The modules for data

The zigzag goes through every module that is not reserved once, in the order of the standard, and there are as many of
them as the codewords and the remainder have bits. What is reserved is counted row by row, as strips.
-/

namespace EncedoChat.Qr

open Standard

variable {version : Nat} {r c : Nat}

/-! ## What is reserved -/

theorem mem_steps {lo x : Int} {n : Nat} : x ∈ steps lo n ↔ lo ≤ x ∧ x < lo + n := by
  rw [steps, List.mem_map]
  constructor
  · rintro ⟨i, hi, rfl⟩
    rw [List.mem_range] at hi
    omega
  · rintro ⟨hlo, hhi⟩
    exact ⟨(x - lo).toNat, List.mem_range.mpr (by omega), by omega⟩

theorem mem_block {r₀ c₀ h w : Nat} :
    (r, c) ∈ (List.range h).flatMap (fun i => (List.range w).map fun j => (r₀ + i, c₀ + j)) ↔
      r₀ ≤ r ∧ r < r₀ + h ∧ c₀ ≤ c ∧ c < c₀ + w := by
  simp only [List.mem_flatMap, List.mem_map, List.mem_range, Prod.mk.injEq]
  constructor
  · rintro ⟨i, hi, j, hj, rfl, rfl⟩
    omega
  · rintro ⟨h₁, h₂, h₃, h₄⟩
    exact ⟨r - r₀, by omega, c - c₀, by omega, by omega, by omega⟩

theorem mem_timing : (r, c) ∈ (timing version).flatMap (fun i => [(6, i), (i, 6)]) ↔
    r = 6 ∧ 8 ≤ c ∧ c < 8 + (size version - 16) ∨ c = 6 ∧ 8 ≤ r ∧ r < 8 + (size version - 16) := by
  simp only [List.mem_flatMap, timing, List.mem_range'_1, List.mem_cons, Prod.mk.injEq, List.not_mem_nil, or_false]
  constructor
  · rintro ⟨i, hi, ⟨rfl, rfl⟩ | ⟨rfl, rfl⟩⟩
    · exact .inl ⟨rfl, hi⟩
    · exact .inr ⟨rfl, hi⟩
  · rintro (⟨rfl, hc⟩ | ⟨rfl, hr⟩)
    · exact ⟨c, hc, .inl ⟨rfl, rfl⟩⟩
    · exact ⟨r, hr, .inr ⟨rfl, rfl⟩⟩

theorem mem_alignment {p : Nat × Nat} (hp : 2 ≤ p.1 ∧ 2 ≤ p.2) : (r, c) ∈ (alignment p).map Prod.fst ↔
    (p.1 ≤ r + 2 ∧ r ≤ p.1 + 2) ∧ p.2 ≤ c + 2 ∧ c ≤ p.2 + 2 := by
  simp only [alignment, List.map_flatMap, List.map_map, List.mem_flatMap, List.mem_map, mem_steps, Function.comp_apply,
    Prod.mk.injEq]
  constructor
  · rintro ⟨dr, hr, dc, hc, rfl, rfl⟩
    omega
  · rintro ⟨hr, hc⟩
    exact ⟨r - p.1, by omega, c - p.2, by omega, by omega, by omega⟩

theorem mem_formatMarks : (r, c) ∈ (List.range 9).flatMap (fun i => [(8, i), (i, 8)]) ↔
    r = 8 ∧ c < 9 ∨ c = 8 ∧ r < 9 := by
  simp only [List.mem_flatMap, List.mem_range, List.mem_cons, Prod.mk.injEq, List.not_mem_nil, or_false]
  constructor
  · rintro ⟨i, hi, ⟨rfl, rfl⟩ | ⟨rfl, rfl⟩⟩
    · exact .inl ⟨rfl, hi⟩
    · exact .inr ⟨rfl, hi⟩
  · rintro (⟨rfl, hc⟩ | ⟨rfl, hr⟩)
    · exact ⟨c, hc, .inl ⟨rfl, rfl⟩⟩
    · exact ⟨r, hr, .inr ⟨rfl, rfl⟩⟩

theorem mem_formatEnds {n : Nat} (hn : 8 ≤ n) :
    (r, c) ∈ (List.range 8).flatMap (fun i => [(8, n - 1 - i), (n - 1 - i, 8)]) ↔
      r = 8 ∧ n - 8 ≤ c ∧ c < n ∨ c = 8 ∧ n - 8 ≤ r ∧ r < n := by
  simp only [List.mem_flatMap, List.mem_range, List.mem_cons, Prod.mk.injEq, List.not_mem_nil, or_false]
  constructor
  · rintro ⟨i, hi, ⟨rfl, rfl⟩ | ⟨rfl, rfl⟩⟩
    · exact .inl ⟨rfl, by omega⟩
    · exact .inr ⟨rfl, by omega⟩
  · rintro (⟨rfl, hc⟩ | ⟨rfl, hr⟩)
    · exact ⟨n - 1 - c, by omega, .inl ⟨rfl, by omega⟩⟩
    · exact ⟨n - 1 - r, by omega, .inr ⟨by omega, rfl⟩⟩

theorem mem_versionMarks {n : Nat} :
    (r, c) ∈ ((List.range 6).flatMap fun i => (List.range 3).flatMap fun j => [(i, n - 11 + j), (n - 11 + j, i)]) ↔
      r < 6 ∧ n - 11 ≤ c ∧ c < n - 11 + 3 ∨ c < 6 ∧ n - 11 ≤ r ∧ r < n - 11 + 3 := by
  simp only [List.mem_flatMap, List.mem_range, List.mem_cons, Prod.mk.injEq, List.not_mem_nil, or_false]
  constructor
  · rintro ⟨i, hi, j, hj, ⟨rfl, rfl⟩ | ⟨rfl, rfl⟩⟩
    · exact .inl ⟨hi, by omega⟩
    · exact .inr ⟨hi, by omega⟩
  · rintro (⟨hr, hc⟩ | ⟨hc, hr⟩)
    · exact ⟨r, hr, c - (n - 11), by omega, .inl ⟨rfl, by omega⟩⟩
    · exact ⟨c, hc, r - (n - 11), by omega, .inr ⟨by omega, rfl⟩⟩

theorem centres : ∀ v < 21, ∀ p ∈ alignments v, 2 ≤ p.1 ∧ 2 ≤ p.2 := by decide

theorem size_ge (hv : Known version) : 21 ≤ size version := by
  have := hv.1
  rw [size]
  omega

/-- Rows between which what is reserved changes. -/
theorem row_cases (version r : Nat) :
    r < 6 ∨ r = 6 ∨ r = 7 ∨ r = 8 ∨ 8 < r ∧ r < size version - 8 ∨ size version - 8 ≤ r := by
  omega

/-- The encoder reserves what holds no data. -/
theorem mem_marks (hv : Known version) (hr : r < size version) (hc : c < size version) :
    (r, c) ∈ marks version ↔ Fixed version r c := by
  have hsize := size_ge hv
  have hcorner : (r, c) ∈ [(0, 0), (0, size version - 8), (size version - 8, 0)].flatMap (fun p =>
      (List.range 8).flatMap fun i => (List.range 8).map fun j => (p.1 + i, p.2 + j)) ↔
        r < 8 ∧ c < 8 ∨ r < 8 ∧ size version - 8 ≤ c ∨ size version - 8 ≤ r ∧ c < 8 := by
    simp only [List.flatMap_cons, List.flatMap_nil, List.append_nil, List.mem_append, mem_block]
    omega
  have halign : (r, c) ∈ (alignments version).flatMap (fun p => (alignment p).map Prod.fst) ↔
      ∃ p ∈ alignments version, (p.1 ≤ r + 2 ∧ r ≤ p.1 + 2) ∧ p.2 ≤ c + 2 ∧ c ≤ p.2 + 2 := by
    rw [List.mem_flatMap]
    exact exists_congr fun p => and_congr_right fun hp => mem_alignment (centres version hv.2 p hp)
  rw [marks, Fixed]
  simp only [List.mem_append, hcorner, mem_timing, halign, mem_formatMarks,
    mem_formatEnds (by omega : 8 ≤ size version), List.mem_ite_nil_right, mem_versionMarks, List.mem_cons,
    List.not_mem_nil, or_false, Prod.mk.injEq]
  generalize (∃ p ∈ alignments version, (p.1 ≤ r + 2 ∧ r ≤ p.1 + 2) ∧ p.2 ≤ c + 2 ∧ c ≤ p.2 + 2) = A
  clear halign hcorner
  rcases row_cases version r with h | rfl | rfl | rfl | h | h <;> constructor <;> intro hin <;> grind

/-! ## The zigzag -/

theorem mem_column {n right : Nat} {upward : Bool} :
    (r, c) ∈ column n upward right ↔ r < n ∧ (c = right ∨ c = right - 1) := by
  simp only [column, List.mem_flatMap, List.mem_range, List.mem_cons, Prod.mk.injEq, List.not_mem_nil, or_false]
  constructor
  · rintro ⟨step, hstep, ⟨rfl, rfl⟩ | ⟨rfl, rfl⟩⟩
    · exact ⟨by split <;> omega, .inl rfl⟩
    · exact ⟨by split <;> omega, .inr rfl⟩
  · rintro ⟨hr, hc⟩
    refine ⟨if upward then n - 1 - r else r, by split <;> omega, ?_⟩
    cases upward
    · simpa using hc
    · have hback : n - 1 - (n - 1 - r) = r := by omega
      simpa [hback] using hc

theorem mem_columns {n : Nat} {upward : Bool} {rs : List Nat} :
    (r, c) ∈ columns n upward rs ↔ r < n ∧ ∃ right ∈ rs, c = right ∨ c = right - 1 := by
  induction rs generalizing upward with
  | nil => simp [columns]
  | cons right rest ih =>
      rw [columns, List.mem_append, mem_column, ih, List.exists_mem_cons_iff]
      exact and_or_left.symm

theorem nodup_column {n right : Nat} (upward : Bool) (h : 1 ≤ right) : (column n upward right).Nodup := by
  rw [column, List.nodup_flatMap]
  constructor
  · intro step _
    simp
    omega
  · refine List.nodup_range.pairwise_of_forall_ne fun a ha b hb hne => ?_
    rw [List.mem_range] at ha hb
    simp only [Function.onFun, List.disjoint_left, List.mem_cons, List.not_mem_nil, or_false]
    rintro ⟨x, y⟩ hx hy
    simp only [Prod.mk.injEq] at hx hy
    cases upward <;> simp at hx hy <;> omega

theorem nodup_columns {n : Nat} {rs : List Nat} (upward : Bool) (hpos : ∀ right ∈ rs, 1 ≤ right)
    (h : rs.Pairwise fun a b => b + 1 < a) : (columns n upward rs).Nodup := by
  induction rs generalizing upward with
  | nil => exact List.nodup_nil
  | cons right rest ih =>
      rw [List.forall_mem_cons] at hpos
      rw [List.pairwise_cons] at h
      rw [columns, List.nodup_append]
      refine ⟨nodup_column upward hpos.1, ih _ hpos.2 h.2, ?_⟩
      rintro ⟨x, y⟩ hx ⟨x', y'⟩ hx' heq
      obtain ⟨rfl, rfl⟩ := Prod.mk.inj heq
      obtain ⟨-, hy⟩ := mem_column.mp hx
      obtain ⟨-, other, hin, hy'⟩ := mem_columns.mp hx'
      have := h.1 other hin
      omega

/-- The pairs of columns: apart, and all but the timing column. -/
theorem rights_spec {fuel right : Nat} (hfuel : right ≤ fuel) (hright : right % 2 = 1 ∨ right = 0 ∨ 6 ≤ right) :
    (∀ x ∈ rights fuel right, 1 ≤ x ∧ x ≤ right) ∧ (rights fuel right).Pairwise (fun a b => b + 1 < a) ∧
      ∀ c ≤ right, c ≠ 6 → right ≠ 0 → ∃ x ∈ rights fuel right, c = x ∨ c = x - 1 := by
  induction fuel generalizing right with
  | zero =>
      obtain rfl := Nat.le_zero.mp hfuel
      exact ⟨List.forall_mem_nil _, .nil, fun _ _ _ h => absurd rfl h⟩
  | succ fuel ih =>
      rw [rights]
      by_cases hstop : right < 1
      · rw [if_pos hstop]
        exact ⟨List.forall_mem_nil _, .nil, fun _ _ _ h => absurd (Nat.lt_one_iff.mp hstop) h⟩
      · rw [if_neg hstop]
        dsimp only
        generalize hx : (if right = 6 then 5 else right) = x
        have hxr : x = right ∧ right ≠ 6 ∨ x = 5 ∧ right = 6 := by
          split at hx <;> omega
        obtain ⟨hbound, hapart, hcover⟩ := ih (by omega : x - 2 ≤ fuel) (by omega)
        refine ⟨List.forall_mem_cons.mpr ⟨by omega, fun y hy => ?_⟩, List.pairwise_cons.mpr ⟨fun y hy => ?_, hapart⟩,
          fun c hc h6 _ => ?_⟩
        · have := hbound y hy
          omega
        · have := hbound y hy
          omega
        · by_cases hhere : c = x ∨ c = x - 1
          · exact ⟨x, List.mem_cons_self .., hhere⟩
          · obtain ⟨y, hy, hcy⟩ := hcover c (by omega) h6 (by omega)
            exact ⟨y, List.mem_cons_of_mem _ hy, hcy⟩

theorem rights_of_known (hv : Known version) :
    (∀ x ∈ rights (size version) (size version - 1), 1 ≤ x ∧ x ≤ size version - 1) ∧
      (rights (size version) (size version - 1)).Pairwise (fun a b => b + 1 < a) ∧
      ∀ c < size version, c ≠ 6 → ∃ x ∈ rights (size version) (size version - 1), c = x ∨ c = x - 1 := by
  have hsize := size_ge hv
  obtain ⟨hbound, hapart, hcover⟩ := rights_spec (Nat.sub_le (size version) 1) (.inr (.inr (by omega)))
  exact ⟨hbound, hapart, fun c hc h6 => hcover c (by omega) h6 (by omega)⟩

theorem nodup_dataModules (hv : Known version) : (dataModules version).Nodup := by
  obtain ⟨hbound, hapart, -⟩ := rights_of_known hv
  exact (nodup_columns true (fun x hx => (hbound x hx).1) hapart).filter _

/-- The data goes to what is not reserved. -/
theorem mem_dataModules (hv : Known version) :
    (r, c) ∈ dataModules version ↔ r < size version ∧ c < size version ∧ ¬ Fixed version r c := by
  obtain ⟨hbound, -, hcover⟩ := rights_of_known hv
  have hsize := size_ge hv
  rw [dataModules, List.mem_filter, mem_columns]
  simp only [reserved, decide_eq_true_eq]
  constructor
  · rintro ⟨⟨hr, right, hin, hc⟩, hnot⟩
    have hright := hbound right hin
    have hc : c < size version := by omega
    exact ⟨hr, hc, (mem_marks hv hr hc).not.mp hnot⟩
  · rintro ⟨hr, hc, hnot⟩
    have h6 : c ≠ 6 := fun h => hnot (.inr (.inr (.inr (.inr (.inl h)))))
    exact ⟨⟨hr, hcover c hc h6⟩, (mem_marks hv hr hc).not.mpr hnot⟩

theorem rights_eq : ∀ v < 21, rights (size v) (size v - 1) = (List.range ((size v - 1) / 2)).map (rightOf v) := by
  decide

theorem columns_range' (n s m : Nat) (f : Nat → Nat) :
    columns n (decide (s % 2 = 0)) ((List.range' s m).map f) =
      (List.range' s m).flatMap fun k => column n (decide (k % 2 = 0)) (f k) := by
  induction m generalizing s with
  | zero => rfl
  | succ m ih =>
      have hturn : (!decide (s % 2 = 0)) = decide ((s + 1) % 2 = 0) := by
        rw [← decide_not]
        exact decide_eq_decide.mpr (by omega)
      rw [List.range'_succ, List.map_cons, columns, List.flatMap_cons, hturn, ih]

/-- The encoder fills the modules in the order of the standard. -/
theorem dataModules_eq (hv : Known version) : dataModules version = order version := by
  have hcolumns : columns (size version) true (rights (size version) (size version - 1)) =
      (List.range ((size version - 1) / 2)).flatMap fun k =>
        column (size version) (decide (k % 2 = 0)) (rightOf version k) := by
    rw [rights_eq version hv.2, List.range_eq_range']
    exact columns_range' (size version) 0 _ _
  obtain ⟨hbound, -⟩ := rights_of_known hv
  rw [order]
  simp only [dataModules]
  have hfilter : ∀ p ∈ columns (size version) true (rights (size version) (size version - 1)),
      decide (¬ reserved version p = true) = decide (¬ Fixed version p.1 p.2) := by
    rintro ⟨r, c⟩ hp
    obtain ⟨hr, right, hin, hc⟩ := mem_columns.mp hp
    have hright := hbound right hin
    have hsize := size_ge hv
    simp only [reserved, decide_eq_true_eq, mem_marks hv hr (by omega : c < size version)]
  rw [List.filter_congr hfilter, hcolumns]
  simp only [column, decide_eq_true_eq]

/-! ## How many there are -/

/-- The strips of a row that hold no data. -/
def strips (version r : Nat) : List (Nat × Nat) :=
  let size := size version
  (if r < 9 then [(0, 9), (size - 8, 8)] else [])
  ++ (if size - 8 ≤ r then [(0, 9)] else [])
  ++ (if r = 6 then [(0, size)] else [])
  ++ [(6, 1)]
  ++ ((alignments version).filter fun p => p.1 ≤ r + 2 ∧ r ≤ p.1 + 2).map (fun p => (p.2 - 2, 5))
  ++ (if 7 ≤ version ∧ r < 6 then [(size - 11, 3)] else [])
  ++ if 7 ≤ version ∧ size - 11 ≤ r ∧ r < size - 8 then [(0, 6)] else []

theorem mem_strips (hv : Known version) (hc : c < size version) :
    (∃ s ∈ strips version r, s.1 ≤ c ∧ c < s.1 + s.2) ↔ Fixed version r c := by
  have hsize := size_ge hv
  have halign : (∃ s ∈ ((alignments version).filter fun p => p.1 ≤ r + 2 ∧ r ≤ p.1 + 2).map (fun p => (p.2 - 2, 5)),
      s.1 ≤ c ∧ c < s.1 + s.2) ↔
        ∃ p ∈ alignments version, (p.1 ≤ r + 2 ∧ r ≤ p.1 + 2) ∧ p.2 ≤ c + 2 ∧ c ≤ p.2 + 2 := by
    simp only [List.mem_map, List.mem_filter, decide_eq_true_eq]
    constructor
    · rintro ⟨_, ⟨p, ⟨hp, hrow⟩, rfl⟩, hcol⟩
      have := centres version hv.2 p hp
      exact ⟨p, hp, hrow, by omega⟩
    · rintro ⟨p, hp, hrow, hcol⟩
      have := centres version hv.2 p hp
      exact ⟨_, ⟨p, ⟨hp, hrow⟩, rfl⟩, by omega⟩
  rw [strips, Fixed]
  simp only [List.mem_append, or_and_right, exists_or, halign]
  generalize (∃ p ∈ alignments version, (p.1 ≤ r + 2 ∧ r ≤ p.1 + 2) ∧ p.2 ≤ c + 2 ∧ c ≤ p.2 + 2) = A
  simp only [List.mem_ite_nil_right, List.mem_cons, List.not_mem_nil, or_false, or_and_right, exists_or, and_assoc,
    exists_and_left, exists_eq_left]
  clear halign
  rcases row_cases version r with h | rfl | rfl | rfl | h | h <;> constructor <;> intro hin <;> grind

def rowOnes (version r : Nat) : Nat := ones 7 (cover (strips version r) % 2 ^ size version)

theorem card_row (hv : Known version) :
    ((Finset.range (size version)).filter fun c => ¬ Fixed version r c).card = size version - rowOnes version r := by
  have hbig : size version ≤ 2 ^ 7 := by
    have := hv.2
    rw [size]
    omega
  have hones : rowOnes version r = ((Finset.range (size version)).filter fun c => Fixed version r c).card := by
    rw [rowOnes, ones_eq]
    congr 1
    ext c
    simp only [Finset.mem_filter, Finset.mem_range, Nat.testBit_mod_two_pow, Bool.and_eq_true, decide_eq_true_eq,
      testBit_cover]
    constructor
    · rintro ⟨-, hc, hs⟩
      exact ⟨hc, (mem_strips hv hc).mp hs⟩
    · rintro ⟨hc, hm⟩
      exact ⟨by omega, hc, (mem_strips hv hc).mpr hm⟩
  have hsum := Finset.card_filter_add_card_filter_not (s := Finset.range (size version)) fun c => Fixed version r c
  rw [Finset.card_range] at hsum
  omega

theorem rowOnes_sum : ∀ v < 21, 1 ≤ v →
    ((List.range (size v)).map fun r => size v - rowOnes v r).sum = 8 * totalCodewords v + (spec v).remainder := by
  decide +kernel

/-- The data modules are as many as the bits. -/
theorem length_dataModules (hv : Known version) :
    (dataModules version).length = 8 * totalCodewords version + (spec version).remainder := by
  rw [← rowOnes_sum version hv.2 hv.1, ← List.toFinset_card_of_nodup (nodup_dataModules hv)]
  have hset : (dataModules version).toFinset =
      ((Finset.range (size version)) ×ˢ (Finset.range (size version))).filter fun p => ¬ Fixed version p.1 p.2 := by
    ext ⟨r, c⟩
    simp only [List.mem_toFinset, mem_dataModules hv, Finset.mem_filter, Finset.mem_product, Finset.mem_range,
      and_assoc]
  rw [hset, Finset.card_filter, Finset.sum_product]
  have hrows : ∀ r ∈ Finset.range (size version), (∑ c ∈ Finset.range (size version),
      if ¬ Fixed version r c then 1 else 0) = size version - rowOnes version r := by
    intro r _
    rw [← Finset.card_filter, card_row hv]
  rw [Finset.sum_congr rfl hrows]
  rfl

end EncedoChat.Qr
