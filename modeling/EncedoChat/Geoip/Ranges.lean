import EncedoChat.Lib.Dyadic
import Mathlib.Data.List.Sort
import Mathlib.Data.List.Pairwise

/-!
# Ranges of addresses and their blocks

`rangeToCidrs` and `mergeRanges` of `geoip.mjs`, over the addresses as numbers.
-/

namespace EncedoChat.Geoip

/-- `[start, end]`, both inclusive; it may be inverted. -/
abbrev Range := Nat × Nat

/-- A first address and a prefix length. -/
abbrev Net := Nat × Nat

/-- The zero bits at the end of `s`, at most as many as are left. -/
def zeros : Nat → Nat → Nat
  | 0, _ => 0
  | left + 1, s => if s % 2 = 0 then zeros left (s / 2) + 1 else 0

/-- The block gets shorter until it does not run past `end`. -/
def shrink (start end_ : Nat) : Nat → Nat
  | 0 => 0
  | size + 1 => if end_ < start + 2 ^ (size + 1) - 1 then shrink start end_ size else size + 1

/-- The largest block at `start`. -/
def blockSize (start end_ bits : Nat) : Nat := shrink start end_ (if start = 0 then bits else zeros bits start)

/-- The fewest blocks for `[start, end]`. -/
def rangeToCidrs (start end_ bits : Nat) : List Net :=
  if start ≤ end_ then
    (start, bits - blockSize start end_ bits) :: rangeToCidrs (start + 2 ^ blockSize start end_ bits) end_ bits
  else []
termination_by end_ + 1 - start
decreasing_by
  have := Nat.two_pow_pos (blockSize start end_ bits)
  omega

/-- The loop of `mergeRanges`, with the range that may still grow. -/
def mergeFrom (last : Range) : List Range → List Range
  | [] => [last]
  | r :: rs => if r.1 ≤ last.2 + 1 then mergeFrom (last.1, if last.2 < r.2 then r.2 else last.2) rs else last :: mergeFrom r rs

def mergeRanges (list : List Range) : List Range :=
  match list.insertionSort fun a b => a.1 ≤ b.1 with
  | [] => []
  | r :: rs => mergeFrom r rs

/-! ## One block -/

theorem zeros_dvd (left s : Nat) : 2 ^ zeros left s ∣ s := by
  induction left generalizing s with
  | zero => exact one_dvd s
  | succ left ih =>
      rw [zeros]
      split
      · rename_i heven
        have hs : s = s / 2 * 2 := by omega
        rw [Nat.pow_succ]
        conv => rhs; rw [hs]
        exact Nat.mul_dvd_mul_right (ih _) 2
      · exact one_dvd s

theorem zeros_le (left s : Nat) : zeros left s ≤ left := by
  induction left generalizing s with
  | zero => exact le_rfl
  | succ left ih =>
      rw [zeros]
      split
      · exact Nat.succ_le_succ (ih _)
      · exact Nat.zero_le _

theorem le_zeros {left s j : Nat} (hj : j ≤ left) (hdvd : 2 ^ j ∣ s) : j ≤ zeros left s := by
  induction left generalizing s j with
  | zero => exact hj
  | succ left ih =>
      cases j with
      | zero => exact Nat.zero_le _
      | succ j =>
          obtain ⟨k, rfl⟩ := hdvd
          have heven : 2 ^ (j + 1) * k = 2 * (2 ^ j * k) := by ring
          rw [zeros, heven, if_pos (Nat.mul_mod_right 2 _), Nat.mul_div_cancel_left _ (by decide)]
          exact Nat.succ_le_succ (ih (Nat.le_of_succ_le_succ hj) (Nat.dvd_mul_right _ _))

variable {start end_ bits : Nat}

theorem shrink_le (size : Nat) : shrink start end_ size ≤ size := by
  induction size with
  | zero => exact le_rfl
  | succ size ih =>
      rw [shrink]
      split
      · omega
      · exact le_rfl

theorem shrink_fits (h : start ≤ end_) (size : Nat) : start + 2 ^ shrink start end_ size ≤ end_ + 1 := by
  induction size with
  | zero =>
      rw [shrink, Nat.pow_zero]
      omega
  | succ size ih =>
      rw [shrink]
      split
      · exact ih
      · have := Nat.two_pow_pos (size + 1)
        omega

theorem le_shrink {size j : Nat} (hj : j ≤ size) (hfits : start + 2 ^ j ≤ end_ + 1) : j ≤ shrink start end_ size := by
  induction size with
  | zero => exact hj
  | succ size ih =>
      rw [shrink]
      split
      · rename_i hlong
        rcases Nat.lt_or_eq_of_le hj with hlt | rfl
        · exact ih (Nat.le_of_lt_succ hlt)
        · omega
      · exact hj

theorem blockSize_le : blockSize start end_ bits ≤ bits := by
  refine (shrink_le _).trans ?_
  split
  · exact le_rfl
  · exact zeros_le _ _

theorem blockSize_dvd : 2 ^ blockSize start end_ bits ∣ start := by
  rw [blockSize]
  split
  · rename_i hzero
    rw [hzero]
    exact Nat.dvd_zero _
  · exact (Nat.pow_dvd_pow 2 (shrink_le _)).trans (zeros_dvd _ _)

/-- No longer block begins at `start` and ends in the range. -/
theorem le_blockSize {j : Nat} (hj : j ≤ bits) (hdvd : 2 ^ j ∣ start) (hfits : start + 2 ^ j ≤ end_ + 1) :
    j ≤ blockSize start end_ bits := by
  apply le_shrink _ hfits
  split
  · exact hj
  · exact le_zeros hj hdvd

/-! ## The blocks of a range -/

/-- A block within an address space. -/
structure IsNet (bits : Nat) (c : Net) : Prop where
  prefixLen : c.2 ≤ bits
  aligned : 2 ^ (bits - c.2) ∣ c.1

/-- The addresses of a block. -/
def Net.points (bits : Nat) (c : Net) : Set Nat := {x | c.1 ≤ x ∧ x < c.1 + 2 ^ (bits - c.2)}

theorem IsNet.subset_of_meets {c d : Net} (hc : IsNet bits c) (hd : IsNet bits d) {x : Nat} (hxc : x ∈ Net.points bits c)
    (hxd : x ∈ Net.points bits d) (hle : bits - c.2 ≤ bits - d.2) : Net.points bits c ⊆ Net.points bits d :=
  Dyadic.subset_of_meets (c := ⟨c.1, bits - c.2, hc.aligned⟩) (d := ⟨d.1, bits - d.2, hd.aligned⟩) hxc hxd hle

theorem sub_sub_blockSize (start end_ bits : Nat) : bits - (bits - blockSize start end_ bits) = blockSize start end_ bits :=
  Nat.sub_sub_self blockSize_le

/-- Each block lies in the range. -/
theorem mem_rangeToCidrs {c : Net} (h : c ∈ rangeToCidrs start end_ bits) :
    IsNet bits c ∧ start ≤ c.1 ∧ c.1 + 2 ^ (bits - c.2) ≤ end_ + 1 := by
  induction start using rangeToCidrs.induct end_ bits with
  | case1 start hle ih =>
      rw [rangeToCidrs, if_pos hle] at h
      rcases List.mem_cons.mp h with rfl | h
      · rw [sub_sub_blockSize]
        refine ⟨⟨Nat.sub_le _ _, ?_⟩, le_rfl, shrink_fits hle _⟩
        rw [sub_sub_blockSize]
        exact blockSize_dvd
      · obtain ⟨hnet, hstart, hend⟩ := ih h
        exact ⟨hnet, (Nat.le_add_right _ _).trans hstart, hend⟩
  | case2 start hle =>
      rw [rangeToCidrs, if_neg hle] at h
      cases h

/-- One block ends before the next begins. -/
theorem pairwise_rangeToCidrs (start end_ bits : Nat) :
    (rangeToCidrs start end_ bits).Pairwise fun c d => c.1 + 2 ^ (bits - c.2) ≤ d.1 := by
  induction start using rangeToCidrs.induct end_ bits with
  | case1 start hle ih =>
      rw [rangeToCidrs, if_pos hle, List.pairwise_cons]
      refine ⟨fun d hd => ?_, ih⟩
      rw [sub_sub_blockSize]
      exact (mem_rangeToCidrs hd).2.1
  | case2 start hle =>
      rw [rangeToCidrs, if_neg hle]
      exact .nil

/-- A block inside the range lies in one of its blocks. -/
theorem inside_rangeToCidrs {d : Net} (hd : IsNet bits d) (hstart : start ≤ d.1) (hend : d.1 + 2 ^ (bits - d.2) ≤ end_ + 1) :
    ∃ c ∈ rangeToCidrs start end_ bits, Net.points bits d ⊆ Net.points bits c := by
  induction start using rangeToCidrs.induct end_ bits with
  | case1 start hle ih =>
      have hsize := sub_sub_blockSize start end_ bits
      have hd1 : d.1 ∈ Net.points bits d := ⟨le_rfl, Nat.lt_add_of_pos_right (Nat.two_pow_pos _)⟩
      rw [rangeToCidrs, if_pos hle]
      by_cases hnext : start + 2 ^ blockSize start end_ bits ≤ d.1
      · obtain ⟨c, hc, hsub⟩ := ih hnext
        exact ⟨c, List.mem_cons_of_mem _ hc, hsub⟩
      · refine ⟨_, List.mem_cons_self, ?_⟩
        have hnet : IsNet bits (start, bits - blockSize start end_ bits) :=
          ⟨Nat.sub_le _ _, by rw [hsize]; exact blockSize_dvd⟩
        have hmeets : d.1 ∈ Net.points bits (start, bits - blockSize start end_ bits) :=
          ⟨hstart, by rw [hsize]; exact Nat.not_le.mp hnext⟩
        apply hd.subset_of_meets hnet hd1 hmeets
        rw [hsize]
        rcases Nat.le_total (bits - d.2) (blockSize start end_ bits) with hsmall | hbig
        · exact hsmall
        · -- the block at `start` lies in `d`, which then begins there
          have hback := hnet.subset_of_meets hd hmeets hd1 (by rw [hsize]; exact hbig)
          have hfirst : start ∈ Net.points bits d := hback ⟨le_rfl, Nat.lt_add_of_pos_right (Nat.two_pow_pos _)⟩
          have heq : start = d.1 := Nat.le_antisymm hstart hfirst.1
          apply le_blockSize (Nat.sub_le _ _)
          · rw [heq]
            exact hd.aligned
          · rw [heq]
            exact hend
  | case2 start hle =>
      have := Nat.two_pow_pos (bits - d.2)
      omega

/-- Each address of the range is in a block. -/
theorem cover_rangeToCidrs (bits : Nat) {x : Nat} (hstart : start ≤ x) (hend : x ≤ end_) :
    ∃ c ∈ rangeToCidrs start end_ bits, x ∈ Net.points bits c := by
  have hone : IsNet bits (x, bits) := ⟨le_rfl, by rw [Nat.sub_self]; exact one_dvd x⟩
  obtain ⟨c, hc, hsub⟩ := inside_rangeToCidrs hone hstart (by rw [Nat.sub_self]; exact Nat.succ_le_succ hend)
  exact ⟨c, hc, hsub ⟨le_rfl, Nat.lt_add_of_pos_right (Nat.two_pow_pos _)⟩⟩

/-! ## Merging -/

/-- The addresses of a range; an inverted one has none. -/
def Range.points (r : Range) : Set Nat := {x | r.1 ≤ x ∧ x ≤ r.2}

/-- The addresses of a list. -/
def union (list : List Range) : Set Nat := {x | ∃ r ∈ list, x ∈ Range.points r}

section
variable {last : Range} {rs list : List Range}

theorem union_cons {r : Range} : union (r :: rs) = Range.points r ∪ union rs := by
  ext x
  simp [union]

/-- Two ranges that touch, in order, are one. -/
theorem points_join {r : Range} (hsorted : last.1 ≤ r.1) (htouch : r.1 ≤ last.2 + 1) :
    Range.points (last.1, if last.2 < r.2 then r.2 else last.2) = Range.points last ∪ Range.points r := by
  ext x
  simp only [Range.points, Set.mem_setOf_eq, Set.mem_union]
  split <;> omega

theorem union_mergeFrom (h : (last :: rs).Pairwise fun a b => a.1 ≤ b.1) : union (mergeFrom last rs) = union (last :: rs) := by
  induction rs generalizing last with
  | nil => rfl
  | cons r rs ih =>
      obtain ⟨hlast, hrest⟩ := List.pairwise_cons.mp h
      rw [mergeFrom]
      split
      · rename_i htouch
        have hsorted : ((last.1, if last.2 < r.2 then r.2 else last.2) :: rs).Pairwise fun a b => a.1 ≤ b.1 :=
          List.pairwise_cons.mpr ⟨fun q hq => hlast q (List.mem_cons_of_mem r hq), (List.pairwise_cons.mp hrest).2⟩
        rw [ih hsorted, union_cons, points_join (hlast r List.mem_cons_self) htouch, Set.union_assoc, ← union_cons, ← union_cons]
      · rw [union_cons, ih hrest, ← union_cons]

theorem mergeFrom_starts (h : (last :: rs).Pairwise fun a b => a.1 ≤ b.1) : ∀ q ∈ mergeFrom last rs, last.1 ≤ q.1 := by
  induction rs generalizing last with
  | nil =>
      intro q hq
      rw [List.mem_singleton.mp hq]
  | cons r rs ih =>
      obtain ⟨hlast, hrest⟩ := List.pairwise_cons.mp h
      rw [mergeFrom]
      split
      · apply ih
        exact List.pairwise_cons.mpr ⟨fun q hq => hlast q (List.mem_cons_of_mem r hq), (List.pairwise_cons.mp hrest).2⟩
      · intro q hq
        rcases List.mem_cons.mp hq with rfl | hq
        · exact le_rfl
        · exact (hlast r List.mem_cons_self).trans (ih hrest q hq)

/-- What is merged stands apart: an address is missing between any two. -/
theorem mergeFrom_apart (h : (last :: rs).Pairwise fun a b => a.1 ≤ b.1) :
    (mergeFrom last rs).Pairwise fun p q => p.2 + 1 < q.1 := by
  induction rs generalizing last with
  | nil => exact List.pairwise_singleton _ _
  | cons r rs ih =>
      obtain ⟨hlast, hrest⟩ := List.pairwise_cons.mp h
      rw [mergeFrom]
      split
      · apply ih
        exact List.pairwise_cons.mpr ⟨fun q hq => hlast q (List.mem_cons_of_mem r hq), (List.pairwise_cons.mp hrest).2⟩
      · rename_i hgap
        refine List.pairwise_cons.mpr ⟨fun q hq => ?_, ih hrest⟩
        exact (Nat.not_le.mp hgap).trans_le (mergeFrom_starts hrest q hq)

end

theorem mergeFrom_ordered (h : (last :: rs).Pairwise fun a b => a.1 ≤ b.1) :
    (mergeFrom last rs).Pairwise fun p q => p.1 ≤ q.1 := by
  induction rs generalizing last with
  | nil => exact List.pairwise_singleton _ _
  | cons r rs ih =>
      obtain ⟨hlast, hrest⟩ := List.pairwise_cons.mp h
      rw [mergeFrom]
      split
      · exact ih (List.pairwise_cons.mpr ⟨fun a ha => hlast a (List.mem_cons_of_mem r ha), (List.pairwise_cons.mp hrest).2⟩)
      · refine List.pairwise_cons.mpr ⟨fun q hq => ?_, ih hrest⟩
        exact (hlast r List.mem_cons_self).trans (mergeFrom_starts hrest q hq)

theorem sorted_starts (list : List Range) : (list.insertionSort fun a b => a.1 ≤ b.1).Pairwise fun a b => a.1 ≤ b.1 := by
  have htotal : Std.Total fun a b : Range => a.1 ≤ b.1 := ⟨fun a b => Nat.le_total a.1 b.1⟩
  have htrans : IsTrans Range fun a b => a.1 ≤ b.1 := ⟨fun _ _ _ => Nat.le_trans⟩
  exact List.pairwise_insertionSort _ list

theorem union_mergeRanges (list : List Range) : union (mergeRanges list) = union list := by
  have hperm : union (list.insertionSort fun a b => a.1 ≤ b.1) = union list := by
    ext x
    simp only [union, Set.mem_setOf_eq, (List.perm_insertionSort (fun a b : Range => a.1 ≤ b.1) list).mem_iff]
  have hsorted := sorted_starts list
  rw [mergeRanges, ← hperm]
  cases hs : list.insertionSort fun a b => a.1 ≤ b.1 with
  | nil => rfl
  | cons r rs => exact union_mergeFrom (hs ▸ hsorted)

theorem mergeRanges_starts (list : List Range) : (mergeRanges list).Pairwise fun p q => p.1 ≤ q.1 := by
  have hsorted := sorted_starts list
  rw [mergeRanges]
  cases hs : list.insertionSort fun a b => a.1 ≤ b.1 with
  | nil => exact .nil
  | cons r rs => exact mergeFrom_ordered (hs ▸ hsorted)

theorem mergeRanges_apart (list : List Range) : (mergeRanges list).Pairwise fun p q => p.2 + 1 < q.1 := by
  have hsorted := sorted_starts list
  rw [mergeRanges]
  cases hs : list.insertionSort fun a b => a.1 ≤ b.1 with
  | nil => exact .nil
  | cons r rs => exact mergeFrom_apart (hs ▸ hsorted)

/-! ## The blocks of a list -/

/-- The blocks that `toCidrStrings` makes of one family. -/
def nets (bits : Nat) (list : List Range) : List Net := (mergeRanges list).flatMap fun r => rangeToCidrs r.1 r.2 bits

section
variable {list : List Range}

theorem mem_nets {c : Net} : c ∈ nets bits list ↔ ∃ r ∈ mergeRanges list, c ∈ rangeToCidrs r.1 r.2 bits := List.mem_flatMap

theorem isNet_nets {c : Net} (h : c ∈ nets bits list) : IsNet bits c := by
  obtain ⟨r, -, hc⟩ := mem_nets.mp h
  exact (mem_rangeToCidrs hc).1

theorem pairwise_nets (bits : Nat) (list : List Range) : (nets bits list).Pairwise fun c d => c.1 + 2 ^ (bits - c.2) ≤ d.1 := by
  rw [nets, List.pairwise_flatMap]
  refine ⟨fun r _ => pairwise_rangeToCidrs _ _ _, (mergeRanges_apart list).imp ?_⟩
  intro p q hpq c hc d hd
  have := (mem_rangeToCidrs hc).2.2
  have := (mem_rangeToCidrs hd).2.1
  omega

/-- The blocks hold the addresses of the ranges and no others. -/
theorem points_nets (bits : Nat) (list : List Range) (x : Nat) :
    (∃ c ∈ nets bits list, x ∈ Net.points bits c) ↔ x ∈ union list := by
  rw [← union_mergeRanges]
  constructor
  · rintro ⟨c, hc, hx⟩
    obtain ⟨r, hr, hc⟩ := mem_nets.mp hc
    obtain ⟨-, hstart, hend⟩ := mem_rangeToCidrs hc
    exact ⟨r, hr, hstart.trans hx.1, by have := hx.2; omega⟩
  · rintro ⟨r, hr, hstart, hend⟩
    obtain ⟨c, hc, hx⟩ := cover_rangeToCidrs bits hstart hend
    exact ⟨c, mem_nets.mpr ⟨r, hr, hc⟩, hx⟩

/-- A block of addresses of the ranges lies in one of their blocks. -/
theorem inside_nets {d : Net} (hd : IsNet bits d) (hsub : Net.points bits d ⊆ union list) :
    ∃ c ∈ nets bits list, Net.points bits d ⊆ Net.points bits c := by
  have hpos := Nat.two_pow_pos (bits - d.2)
  rw [← union_mergeRanges] at hsub
  obtain ⟨r, hr, hstart, hend⟩ := hsub ⟨le_rfl, Nat.lt_add_of_pos_right hpos⟩
  have hlast : d.1 + 2 ^ (bits - d.2) ≤ r.2 + 1 := by
    by_contra hlong
    -- the address after the range would be in another that is merged
    obtain ⟨q, hq, hqstart, hqend⟩ := hsub (a := r.2 + 1) ⟨by omega, by omega⟩
    have hsymm : Std.Symm fun p q : Range => p.2 + 1 < q.1 ∨ q.2 + 1 < p.1 := ⟨fun _ _ => Or.symm⟩
    have happart := ((mergeRanges_apart list).imp fun h => Or.inl h :
      (mergeRanges list).Pairwise fun p q => p.2 + 1 < q.1 ∨ q.2 + 1 < p.1)
    by_cases heq : r = q
    · subst heq
      omega
    · rcases happart.forall hr hq heq with h | h <;> omega
  obtain ⟨c, hc, hdc⟩ := inside_rangeToCidrs hd hstart hlast
  exact ⟨c, mem_nets.mpr ⟨r, hr, hc⟩, hdc⟩

end

end EncedoChat.Geoip
