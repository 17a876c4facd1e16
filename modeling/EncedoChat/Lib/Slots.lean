import Mathlib.Data.List.Basic

/-!
# Slots with numbers

A table of slots numbered from 1, whose freed slots are used again.
-/

namespace EncedoChat

structure Slots (α : Type) where
  cells : List (Option α)

namespace Slots

variable {α : Type}

def empty : Slots α := ⟨[]⟩

/-- What the slot holds. -/
def get (t : Slots α) : Nat → Option α
  | 0 => none
  | n + 1 => t.cells[n]?.join

/-- The first free slot takes it, or a new one. -/
def put (t : Slots α) (a : α) : Nat × Slots α :=
  match t.cells.findIdx? Option.isNone with
  | some i => (i + 1, ⟨t.cells.set i (some a)⟩)
  | none => (t.cells.length + 1, ⟨t.cells ++ [some a]⟩)

/-- The slot is free from now on. -/
def clear (t : Slots α) : Nat → Slots α
  | 0 => t
  | n + 1 => ⟨t.cells.set n none⟩

/-- Puts something in a slot that is there. -/
def giveBack (t : Slots α) (a : α) : Nat → Slots α
  | 0 => t
  | n + 1 => ⟨t.cells.set n (some a)⟩

@[simp] theorem get_empty (n : Nat) : (empty : Slots α).get n = none := by
  cases n <;> rfl

theorem get_clear (t : Slots α) (n m : Nat) : (t.clear n).get m = if m = n then none else t.get m := by
  cases n with
  | zero =>
      rw [clear]
      split
      · rename_i h
        rw [h]
        rfl
      · rfl
  | succ n =>
      cases m with
      | zero => rw [if_neg (Nat.succ_ne_zero n).symm]; rfl
      | succ m =>
          rw [clear, get, get, List.getElem?_set]
          by_cases h : n = m
          · subst h
            rw [if_pos rfl, if_pos rfl]
            split <;> rfl
          · rw [if_neg h, if_neg fun he => h (Nat.succ.inj he).symm]

theorem get_giveBack (t : Slots α) (a : α) {n : Nat} (h : t.get n ≠ none) (m : Nat) :
    (t.giveBack a n).get m = if m = n then some a else t.get m := by
  cases n with
  | zero => exact absurd rfl h
  | succ n =>
      have hlt : n < t.cells.length := by
        by_contra hge
        apply h
        rw [get, List.getElem?_eq_none (Nat.not_lt.mp hge), Option.join_none]
      cases m with
      | zero => rw [if_neg (Nat.succ_ne_zero n).symm]; rfl
      | succ m =>
          rw [giveBack, get, get, List.getElem?_set]
          by_cases he : n = m
          · subst he
            rw [if_pos rfl, if_pos hlt, if_pos rfl, Option.join_some]
          · rw [if_neg he, if_neg fun h => he (Nat.succ.inj h).symm]

theorem giveBack_clear (t : Slots α) (a : α) (n : Nat) : (t.clear n).giveBack a n = t.giveBack a n := by
  cases n with
  | zero => rfl
  | succ n => rw [clear, giveBack, giveBack, List.set_set]

/-- What is put goes where nothing was. -/
theorem put_spec (t : Slots α) (a : α) :
    t.get (t.put a).1 = none ∧ ∀ m, (t.put a).2.get m = if m = (t.put a).1 then some a else t.get m := by
  unfold put
  split
  · rename_i i hi
    obtain ⟨hlt, hnone, -⟩ := List.findIdx?_eq_some_iff_getElem.mp hi
    have hcell : t.cells[i]? = some none := by
      rw [List.getElem?_eq_getElem hlt, Option.isNone_iff_eq_none.mp hnone]
    refine ⟨by rw [get, hcell, Option.join_some], fun m => ?_⟩
    cases m with
    | zero => rw [if_neg (Nat.succ_ne_zero i).symm]; rfl
    | succ m =>
        rw [get, get, List.getElem?_set]
        by_cases he : i = m
        · subst he
          rw [if_pos rfl, if_pos hlt, if_pos rfl, Option.join_some]
        · rw [if_neg he, if_neg fun h => he (Nat.succ.inj h).symm]
  · refine ⟨by rw [get, List.getElem?_eq_none (Nat.le_refl _), Option.join_none], fun m => ?_⟩
    cases m with
    | zero => rw [if_neg (Nat.succ_ne_zero _).symm]; rfl
    | succ m =>
        rw [get, get, List.getElem?_append]
        by_cases hlt : m < t.cells.length
        · rw [if_pos hlt, if_neg fun h => Nat.ne_of_lt hlt (Nat.succ.inj h)]
        · rw [if_neg hlt, List.getElem?_singleton]
          by_cases he : m = t.cells.length
          · rw [he, Nat.sub_self, if_pos rfl, if_pos rfl, Option.join_some]
          · have hnone : t.cells[m]? = none := List.getElem?_eq_none (Nat.not_lt.mp hlt)
            rw [if_neg (by omega), if_neg fun h => he (Nat.succ.inj h), hnone]

/-- What is there stays. -/
theorem get_put_of_some {t : Slots α} {m : Nat} {b : α} (h : t.get m = some b) (a : α) :
    (t.put a).2.get m = some b := by
  obtain ⟨hfree, hput⟩ := put_spec t a
  rw [hput, if_neg, h]
  rintro rfl
  rw [hfree] at h
  cases h

end Slots

end EncedoChat
