import EncedoChat.Lib.Utf16
import Mathlib.Data.List.DropRight

/-!
# Blanks in a string

What `\s` and `trim` take for blank, over the units of a string.
-/

namespace EncedoChat.Units

def isSpace (u : UInt16) : Bool :=
  let n := u.toNat
  (9 ≤ n && n ≤ 13) || n = 32 || n = 0xA0 || n = 0x1680 || (0x2000 ≤ n && n ≤ 0x200A) || n = 0x2028 || n = 0x2029 ||
    n = 0x202F || n = 0x205F || n = 0x3000 || n = 0xFEFF

/-- `s.trim()` -/
def trim (s : Units) : Units := (s.dropWhile isSpace).rdropWhile isSpace

/-- Nothing blank at either end. -/
structure Trimmed (s : Units) : Prop where
  head : ∀ u ∈ s.head?, isSpace u = false
  last : ∀ u ∈ s.getLast?, isSpace u = false

theorem trimmed_trim (s : Units) : Trimmed (trim s) where
  head := by
    intro u hu
    have hpre : trim s <+: s.dropWhile isSpace := List.rdropWhile_prefix isSpace _
    obtain ⟨t, ht⟩ := hpre
    cases hs : trim s with
    | nil =>
        rw [hs] at hu
        cases hu
    | cons v vs =>
        rw [hs] at hu ht
        obtain rfl := Option.some.inj hu
        have hne : s.dropWhile isSpace ≠ [] := by
          rw [← ht]
          simp
        have hhead := List.head_dropWhile_not isSpace hne
        simpa [← ht] using hhead
  last := by
    intro u hu
    have hne : trim s ≠ [] := by
      intro hnil
      rw [hnil] at hu
      cases hu
    have hlast : ¬isSpace ((trim s).getLast hne) = true := List.rdropWhile_last_not isSpace (s.dropWhile isSpace) hne
    rw [List.getLast?_eq_some_getLast hne] at hu
    rw [← Option.some.inj hu]
    exact Bool.eq_false_iff.mpr hlast

theorem mem_trim {s : Units} {u : UInt16} (h : u ∈ trim s) : u ∈ s :=
  (List.dropWhile_suffix isSpace).subset ((List.rdropWhile_prefix isSpace _).subset h)

theorem length_trim_le (s : Units) : (trim s).length ≤ s.length :=
  ((List.rdropWhile_prefix isSpace _).length_le).trans ((List.dropWhile_suffix isSpace).length_le)

/-- What has no blanks at its ends is left as it is. -/
theorem Trimmed.trim_eq {s : Units} (h : Trimmed s) : trim s = s := by
  have hdrop : s.dropWhile isSpace = s := by
    cases s with
    | nil => rfl
    | cons u s =>
        have hu := h.head u rfl
        rw [List.dropWhile_cons_of_neg]
        rw [hu]
        exact Bool.false_ne_true
  rw [trim, hdrop, List.rdropWhile_eq_self_iff]
  intro hne
  rw [h.last _ (List.getLast?_eq_some_getLast hne)]
  exact Bool.false_ne_true

/-- `s.replace(/\s+/g, ' ')`, after a blank or not. -/
def collapse : Bool → Units → Units
  | _, [] => []
  | after, u :: us => if isSpace u then (if after then collapse true us else 0x20 :: collapse true us) else u :: collapse false us

theorem mem_collapse {b : Bool} {s : Units} {u : UInt16} (h : u ∈ collapse b s) : u = 0x20 ∨ u ∈ s ∧ isSpace u = false := by
  induction s generalizing b with
  | nil => cases h
  | cons v s ih =>
      rw [collapse] at h
      have hrest : ∀ {b}, u ∈ collapse b s → u = 0x20 ∨ u ∈ v :: s ∧ isSpace u = false := fun hu =>
        (ih hu).imp id fun ⟨hm, hno⟩ => ⟨List.mem_cons_of_mem v hm, hno⟩
      split at h
      · split at h
        · exact hrest h
        · rcases List.mem_cons.mp h with rfl | h
          · exact .inl rfl
          · exact hrest h
      · rename_i hno
        rcases List.mem_cons.mp h with rfl | h
        · exact .inr ⟨List.mem_cons_self, Bool.not_eq_true _ ▸ hno⟩
        · exact hrest h

end EncedoChat.Units
