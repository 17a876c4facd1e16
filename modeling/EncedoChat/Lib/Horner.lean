import Mathlib.Data.List.Induction
import Mathlib.Data.Nat.Bitwise
import Mathlib.Logic.Function.Iterate

/-!
# Polynomials under exclusive or

A word is the list of its coefficients, the highest first. Its value where multiplication is `X` is Horner's, and what
is linear carries over.
-/

namespace EncedoChat

/-- A map that respects exclusive or. -/
structure Linear (X : Nat → Nat) : Prop where
  map_xor : ∀ a b, X (a ^^^ b) = X a ^^^ X b

namespace Linear

theorem map_zero {X : Nat → Nat} (h : Linear X) : X 0 = 0 := by
  have hzero := h.map_xor 0 0
  rwa [Nat.xor_self, Nat.xor_self] at hzero

theorem iterate {X : Nat → Nat} (h : Linear X) (k : Nat) : Linear X^[k] := by
  induction k with
  | zero => exact ⟨fun _ _ => rfl⟩
  | succ k ih => exact ⟨fun a b => by rw [Function.iterate_succ_apply, h.map_xor, ih.map_xor, ← Function.iterate_succ_apply,
      ← Function.iterate_succ_apply]⟩

end Linear

/-- The value of a word. -/
def horner (X : Nat → Nat) (cs : List Nat) : Nat := cs.foldl (fun s c => X s ^^^ c) 0

/-- Coefficient by coefficient, from the front. -/
def xorInto : List Nat → List Nat → List Nat
  | a :: as, b :: bs => (a ^^^ b) :: xorInto as bs
  | as, _ => as

section

variable {X : Nat → Nat} (hX : Linear X)

theorem horner_concat (cs : List Nat) (c : Nat) : horner X (cs ++ [c]) = X (horner X cs) ^^^ c := by
  rw [horner, List.foldl_append]
  rfl

include hX in
theorem horner_append (as bs : List Nat) : horner X (as ++ bs) = X^[bs.length] (horner X as) ^^^ horner X bs := by
  induction bs using List.reverseRecOn with
  | nil => simp [horner]
  | append_singleton bs b ih =>
      rw [← List.append_assoc, horner_concat, ih, horner_concat, hX.map_xor, List.length_append, List.length_singleton,
        Function.iterate_succ_apply', Nat.xor_assoc]

include hX in
theorem horner_replicate_zero (n : Nat) : horner X (List.replicate n 0) = 0 := by
  induction n with
  | zero => rfl
  | succ n ih => rw [List.replicate_succ', horner_concat, ih, hX.map_zero, Nat.xor_self]

include hX in
theorem horner_zero_cons (cs : List Nat) : horner X (0 :: cs) = horner X cs := by
  have hsplit : (0 :: cs) = [0] ++ cs := rfl
  have hone : horner X [0] = 0 := horner_replicate_zero hX 1
  rw [hsplit, horner_append hX, hone, (hX.iterate _).map_zero, Nat.zero_xor]

include hX in
omit hX in
/-- What commutes with `X` comes out. -/
theorem horner_map {f : Nat → Nat} (hf : Linear f) (hcomm : ∀ a, f (X a) = X (f a)) (cs : List Nat) :
    horner X (cs.map f) = f (horner X cs) := by
  induction cs using List.reverseRecOn with
  | nil => exact hf.map_zero.symm
  | append_singleton cs c ih =>
      rw [List.map_append, List.map_singleton, horner_concat, horner_concat, ih, hf.map_xor, hcomm]

theorem length_xorInto (as bs : List Nat) : (xorInto as bs).length = as.length := by
  fun_induction xorInto as bs with
  | case1 a as b bs ih => rw [List.length_cons, List.length_cons, ih]
  | case2 => rfl

theorem getD_xorInto {as bs : List Nat} {j : Nat} (h : j < as.length) :
    (xorInto as bs).getD j 0 = as.getD j 0 ^^^ bs.getD j 0 := by
  fun_induction xorInto as bs generalizing j with
  | case1 a as b bs ih =>
      cases j with
      | zero => rfl
      | succ j => simpa using ih (Nat.lt_of_succ_lt_succ h)
  | case2 as bs hne =>
      cases bs with
      | nil => simp
      | cons b bs =>
          cases as with
          | nil => cases h
          | cons a as => exact (hne a as b bs rfl rfl).elim

/-- Words of bytes add up to words of bytes. -/
theorem xorInto_lt {as bs : List Nat} (ha : ∀ a ∈ as, a < 256) (hb : ∀ b ∈ bs, b < 256) : ∀ c ∈ xorInto as bs, c < 256 := by
  fun_induction xorInto as bs with
  | case1 a as b bs ih =>
      rw [List.forall_mem_cons] at ha hb ⊢
      exact ⟨Nat.xor_lt_two_pow (n := 8) ha.1 hb.1, ih ha.2 hb.2⟩
  | case2 => exact ha

include hX in
theorem horner_cons (c : Nat) (cs : List Nat) : horner X (c :: cs) = X^[cs.length] c ^^^ horner X cs := by
  have hsplit : (c :: cs) = [c] ++ cs := rfl
  have hone : horner X [c] = c := by rw [horner, List.foldl_cons, List.foldl_nil, hX.map_zero, Nat.zero_xor]
  rw [hsplit, horner_append hX, hone]

include hX in
/-- A shorter word is added where the front of both stands. -/
theorem horner_xorInto {as bs : List Nat} (h : bs.length ≤ as.length) :
    horner X (xorInto as bs) = horner X as ^^^ X^[as.length - bs.length] (horner X bs) := by
  induction as generalizing bs with
  | nil =>
      obtain rfl := List.length_eq_zero_iff.mp (Nat.le_zero.mp h)
      rw [xorInto, horner, List.foldl_nil, (hX.iterate _).map_zero, Nat.xor_zero]
      exact fun _ _ _ _ h => by cases h
  | cons a as ih =>
      cases bs with
      | nil =>
          have hnil : horner X [] = 0 := rfl
          rw [hnil, (hX.iterate _).map_zero, Nat.xor_zero]
          rfl
      | cons b bs =>
          have hle : bs.length ≤ as.length := Nat.le_of_succ_le_succ h
          have hpow : X^[as.length - bs.length] (X^[bs.length] b) = X^[as.length] b := by
            rw [← Function.iterate_add_apply, Nat.sub_add_cancel hle]
          rw [xorInto, horner_cons hX, horner_cons hX, horner_cons hX, length_xorInto, ih hle, (hX.iterate _).map_xor,
            List.length_cons, List.length_cons, Nat.add_sub_add_right, (hX.iterate _).map_xor, hpow]
          ac_rfl

end

end EncedoChat
