import Mathlib.Data.List.Induction
import Mathlib.Data.List.Basic
import Mathlib.Tactic.Ring
import Mathlib.Algebra.BigOperators.Group.Finset.Piecewise
import Mathlib.Data.Nat.Bitwise

/-!
# Bits of numbers

Numbers written as bits, the highest first, and read again; bits gathered eight at a time.
-/

namespace EncedoChat

/-- The lowest `len` bits of a value, the highest of them first. -/
def pushBits (value : Nat) : Nat → List Nat
  | 0 => []
  | len + 1 => (value >>> len &&& 1) :: pushBits value len

/-- The value of bits. -/
def ofBits (bits : List Nat) : Nat := bits.foldl (fun v b => v <<< 1 ||| b) 0

/-- Eight bits at a time. -/
def toBytes (bits : List Nat) : List Nat :=
  (List.range (bits.length / 8)).map fun i => ofBits ((bits.drop (8 * i)).take 8)

theorem length_pushBits (value len : Nat) : (pushBits value len).length = len := by
  induction len with
  | zero => rfl
  | succ len ih => rw [pushBits, List.length_cons, ih]

theorem pushBits_lt (value len : Nat) : ∀ b ∈ pushBits value len, b < 2 := by
  induction len with
  | zero => exact fun b hb => by cases hb
  | succ len ih =>
      rw [pushBits, List.forall_mem_cons, Nat.and_one_is_mod]
      exact ⟨Nat.mod_lt _ (by decide), ih⟩

theorem pushBits_zero (len : Nat) : pushBits 0 len = List.replicate len 0 := by
  induction len with
  | zero => rfl
  | succ len ih => rw [pushBits, ih, Nat.zero_shiftRight, Nat.zero_and, List.replicate_succ]

theorem shift_or (v : Nat) {b : Nat} (hb : b < 2) : v <<< 1 ||| b = 2 * v + b := by
  rw [← Nat.shiftLeft_add_eq_or_of_lt (i := 1) hb, Nat.shiftLeft_eq, pow_one, Nat.mul_comm]

theorem foldl_pushBits (acc value len : Nat) :
    (pushBits value len).foldl (fun v b => v <<< 1 ||| b) acc = acc * 2 ^ len + value % 2 ^ len := by
  induction len generalizing acc with
  | zero => simp [pushBits, Nat.mod_one]
  | succ len ih =>
      have hb : value >>> len &&& 1 = value / 2 ^ len % 2 := by rw [Nat.and_one_is_mod, Nat.shiftRight_eq_div_pow]
      rw [pushBits, List.foldl_cons, ih, hb, shift_or _ (Nat.mod_lt _ (by decide)), Nat.mod_pow_succ, Nat.pow_succ]
      ring

theorem ofBits_pushBits (value len : Nat) : ofBits (pushBits value len) = value % 2 ^ len := by
  rw [ofBits, foldl_pushBits, Nat.zero_mul, Nat.zero_add]

theorem ofBits_concat (bits : List Nat) {b : Nat} (hb : b < 2) : ofBits (bits ++ [b]) = 2 * ofBits bits + b := by
  rw [ofBits, List.foldl_append, List.foldl_cons, List.foldl_nil, shift_or _ hb]
  rfl

/-- The bits of a number are those of its upper part, and the last. -/
theorem pushBits_concat (v len : Nat) {b : Nat} (hb : b < 2) : pushBits (2 * v + b) (len + 1) = pushBits v len ++ [b] := by
  induction len with
  | zero => rw [pushBits, pushBits, Nat.and_one_is_mod, Nat.shiftRight_zero, Nat.mul_add_mod, Nat.mod_eq_of_lt hb]; rfl
  | succ len ih =>
      have hhead : (2 * v + b) >>> (len + 1) = v >>> len := by
        rw [Nat.shiftRight_eq_div_pow, Nat.shiftRight_eq_div_pow, Nat.pow_succ', ← Nat.div_div_eq_div_mul]
        congr 1
        omega
      rw [pushBits, ih, hhead, pushBits, List.cons_append]

theorem pushBits_ofBits {bits : List Nat} (h : ∀ b ∈ bits, b < 2) : pushBits (ofBits bits) bits.length = bits := by
  induction bits using List.reverseRecOn with
  | nil => rfl
  | append_singleton bits b ih =>
      have hb : b < 2 := h b (List.mem_append_right _ (List.mem_singleton_self b))
      rw [ofBits_concat bits hb, List.length_append, List.length_singleton, pushBits_concat _ _ hb,
        ih fun c hc => h c (List.mem_append_left _ hc)]

theorem toBytes_append {bits rest : List Nat} (h : bits.length = 8) : toBytes (bits ++ rest) = ofBits bits :: toBytes rest := by
  have hlen : (bits ++ rest).length / 8 = rest.length / 8 + 1 := by
    rw [List.length_append, h]
    omega
  rw [toBytes, hlen, List.range_succ_eq_map, List.map_cons, List.map_map, Nat.mul_zero, List.drop_zero,
    List.take_left' h]
  congr 1
  refine List.map_congr_left fun i _ => ?_
  have hdrop : (bits ++ rest).drop (8 * (i + 1)) = rest.drop (8 * i) := by
    have hshift : 8 * (i + 1) = bits.length + 8 * i := by omega
    rw [hshift, List.drop_append, List.drop_eq_nil_of_le (by omega), List.nil_append, Nat.add_sub_cancel_left]
  exact congrArg (fun l => ofBits (l.take 8)) hdrop

/-- Bytes written as bits and gathered again. -/
theorem toBytes_flatMap {bytes : List Nat} (h : ∀ c ∈ bytes, c < 256) :
    toBytes (bytes.flatMap (pushBits · 8)) = bytes := by
  induction bytes with
  | nil => rfl
  | cons c bytes ih =>
      rw [List.forall_mem_cons] at h
      have hc : c % 2 ^ 8 = c := Nat.mod_eq_of_lt h.1
      rw [List.flatMap_cons, toBytes_append (length_pushBits c 8), ih h.2, ofBits_pushBits, hc]

/-- Bits gathered and written again. -/
theorem flatMap_toBytes {n : Nat} {bits : List Nat} (hlen : bits.length = 8 * n) (h : ∀ b ∈ bits, b < 2) :
    (toBytes bits).flatMap (pushBits · 8) = bits := by
  induction n generalizing bits with
  | zero => rw [List.length_eq_zero_iff.mp hlen]; rfl
  | succ n ih =>
      have hsplit : bits = bits.take 8 ++ bits.drop 8 := (List.take_append_drop 8 bits).symm
      have htake : (bits.take 8).length = 8 := by rw [List.length_take]; omega
      have hpush := pushBits_ofBits fun b hb => h b (List.mem_of_mem_take (i := 8) hb)
      rw [htake] at hpush
      rw [hsplit, toBytes_append htake, List.flatMap_cons, hpush,
        ih (by rw [List.length_drop]; omega) fun b hb => h b (List.mem_of_mem_drop hb)]

theorem length_toBytes (bits : List Nat) : (toBytes bits).length = bits.length / 8 := by
  rw [toBytes, List.length_map, List.length_range]

theorem ofBits_lt {bits : List Nat} (h : ∀ b ∈ bits, b < 2) : ofBits bits < 2 ^ bits.length := by
  have hval := ofBits_pushBits (ofBits bits) bits.length
  rw [pushBits_ofBits h] at hval
  rw [hval]
  exact Nat.mod_lt _ (Nat.two_pow_pos _)

theorem toBytes_lt {bits : List Nat} (h : ∀ b ∈ bits, b < 2) : ∀ c ∈ toBytes bits, c < 256 := by
  intro c hc
  obtain ⟨i, -, rfl⟩ := List.mem_map.mp hc
  refine lt_of_lt_of_le (ofBits_lt fun b hb => h b (List.mem_of_mem_drop (List.mem_of_mem_take hb))) ?_
  exact Nat.pow_le_pow_right (by decide) (List.length_take_le 8 _)

end EncedoChat

/-!
# Strips of a row

A row as the bits of a number: strips of ones laid over each other, and how many ones there are.
-/

namespace EncedoChat

/-- From a place on, so many ones. -/
def strip (s : Nat × Nat) : Nat := (2 ^ s.2 - 1) <<< s.1

def cover : List (Nat × Nat) → Nat
  | [] => 0
  | s :: ss => strip s ||| cover ss

/-- The ones among the lowest `2 ^ k` bits. -/
def ones : Nat → Nat → Nat
  | 0, m => m % 2
  | k + 1, m => if m = 0 then 0 else ones k (m % 2 ^ 2 ^ k) + ones k (m / 2 ^ 2 ^ k)

theorem testBit_strip (s : Nat × Nat) (c : Nat) : (strip s).testBit c = decide (s.1 ≤ c ∧ c < s.1 + s.2) := by
  rw [strip, Nat.testBit_shiftLeft, Nat.testBit_two_pow_sub_one, ← Bool.decide_and]
  exact decide_eq_decide.mpr (by omega)

theorem testBit_cover (ss : List (Nat × Nat)) (c : Nat) :
    (cover ss).testBit c = true ↔ ∃ s ∈ ss, s.1 ≤ c ∧ c < s.1 + s.2 := by
  induction ss with
  | nil => simp [cover]
  | cons s ss ih =>
      rw [cover, Nat.testBit_or, Bool.or_eq_true, ih, testBit_strip, decide_eq_true_eq, List.exists_mem_cons_iff]

theorem ones_eq (k m : Nat) : ones k m = ((Finset.range (2 ^ k)).filter (m.testBit ·)).card := by
  induction k generalizing m with
  | zero =>
      rw [ones, pow_zero, Finset.range_one, Finset.filter_singleton, Nat.testBit_zero]
      rcases Nat.mod_two_eq_zero_or_one m with h | h <;> simp [h]
  | succ k ih =>
      rw [ones]
      split
      case isTrue h => simp [h]
      case isFalse =>
        have hpow : 2 ^ (k + 1) = 2 ^ k + 2 ^ k := by omega
        rw [ih, ih, hpow, Finset.card_filter, Finset.card_filter, Finset.card_filter, Finset.sum_range_add]
        congr 1
        · refine Finset.sum_congr rfl fun c hc => ?_
          simp [Nat.testBit_mod_two_pow, Finset.mem_range.mp hc]
        · refine Finset.sum_congr rfl fun c _ => ?_
          rw [Nat.testBit_div_two_pow, Nat.add_comm]

end EncedoChat
