import EncedoChat.Lib.Blank
import EncedoChat.Lib.Characters

/-!
# Strings by their code points

A string cut between two code points, and one without some of its code points.
-/

namespace EncedoChat.Units

/-- `[...s].slice(0, n).join('')` -/
def cut (n : Nat) (s : Units) : Units := ((points s).take n).flatten

/-- `s.replace(/[…]/gu, '')` -/
def without (bad : Units → Bool) (s : Units) : Units := ((points s).filter fun p => !bad p).flatten

theorem points_ne_nil {s p : Units} (h : p ∈ points s) : p ≠ [] := by
  rcases points_cases h with ⟨u, rfl⟩ | ⟨u, l, -, -, rfl⟩ <;> simp

/-! ## A cut -/

/-- The first code points of a string stand as they stood in it. -/
theorem points_cut (n : Nat) (s : Units) : points (cut n s) = (points s).take n := by
  rw [cut]
  fun_induction points s generalizing n with
  | case1 => simp [points]
  | case2 u => cases n <;> simp [points]
  | case3 u l us hpair ih =>
      cases n with
      | zero => simp [points]
      | succ n =>
          rw [List.take_succ_cons, List.flatten_cons, List.cons_append, List.cons_append, List.nil_append, points,
            if_pos hpair, ih n]
  | case4 u l us hpair ih =>
      cases n with
      | zero => simp [points]
      | succ n =>
          rw [List.take_succ_cons, List.flatten_cons]
          have hpre : ((points (l :: us)).take n).flatten <+: l :: us := by
            conv => rhs; rw [← flatten_points (l :: us), ← List.take_append_drop n (points (l :: us)), List.flatten_append]
            exact List.prefix_append _ _
          by_cases hu : isHigh u = true
          · have hl : isLow l = false := by
              rw [hu, Bool.true_and, Bool.not_eq_true] at hpair
              exact hpair
            have hclean : Clean ((points (l :: us)).take n).flatten := by
              intro v hv
              obtain ⟨t, ht⟩ := hpre
              cases hrest : ((points (l :: us)).take n).flatten with
              | nil =>
                  rw [hrest] at hv
                  cases hv
              | cons w ws =>
                  rw [hrest] at hv ht
                  obtain rfl := Option.some.inj hv
                  rw [List.cons_append, List.cons.injEq] at ht
                  rw [ht.1]
                  exact hl
            rw [points_append hclean, ih n]
            rfl
          · rw [List.singleton_append, points_cons (Bool.not_eq_true _ ▸ hu), ih n]

theorem cut_of_le {n : Nat} {s : Units} (h : (points s).length ≤ n) : cut n s = s := by
  rw [cut, List.take_of_length_le h, flatten_points]

@[simp] theorem cut_cut (n : Nat) (s : Units) : cut n (cut n s) = cut n s := by
  apply cut_of_le
  rw [points_cut]
  exact List.length_take_le n _

theorem cut_append (n : Nat) (s : Units) : cut n s ++ ((points s).drop n).flatten = s := by
  rw [cut, ← List.flatten_append, List.take_append_drop, flatten_points]

theorem length_cut_le (n : Nat) (s : Units) : (cut n s).length ≤ s.length := by
  conv => rhs; rw [← cut_append n s, List.length_append]
  exact Nat.le_add_right _ _

/-! ## What is left out -/

theorem without_eq_self {bad : Units → Bool} {s : Units} (h : ∀ p ∈ points s, bad p = false) : without bad s = s := by
  have hall : (points s).filter (fun p => !bad p) = points s := by
    rw [List.filter_eq_self]
    intro p hp
    rw [h p hp, Bool.not_false]
  rw [without, hall, flatten_points]

theorem length_flatten_sublist {l m : List Units} (h : List.Sublist l m) (hne : ∀ p ∈ m, p ≠ []) :
    l.flatten.length ≤ m.flatten.length ∧ (l.flatten.length = m.flatten.length → l = m) := by
  induction h with
  | slnil => exact ⟨le_rfl, fun _ => rfl⟩
  | @cons l m p h ih =>
      obtain ⟨hle, -⟩ := ih fun q hq => hne q (List.mem_cons_of_mem p hq)
      have hpos := List.length_pos_of_ne_nil (hne p List.mem_cons_self)
      rw [List.flatten_cons, List.length_append]
      exact ⟨by omega, fun heq => by omega⟩
  | @cons_cons l m p h ih =>
      obtain ⟨hle, heq⟩ := ih fun q hq => hne q (List.mem_cons_of_mem p hq)
      rw [List.flatten_cons, List.flatten_cons, List.length_append, List.length_append]
      exact ⟨by omega, fun hsame => by rw [heq (by omega)]⟩

theorem length_without_le (bad : Units → Bool) (s : Units) : (without bad s).length ≤ s.length := by
  conv => rhs; rw [← flatten_points s]
  exact (length_flatten_sublist List.filter_sublist fun p hp => points_ne_nil hp).1

theorem length_without_iff {bad : Units → Bool} {s : Units} :
    (without bad s).length = s.length ↔ ∀ p ∈ points s, bad p = false := by
  constructor
  · intro h p hp
    have hsame : (points s).filter (fun p => !bad p) = points s := by
      refine (length_flatten_sublist List.filter_sublist fun p hp => points_ne_nil hp).2 ?_
      rw [flatten_points]
      exact h
    have hall := List.filter_eq_self.mp hsame p hp
    rwa [Bool.not_eq_true'] at hall
  · intro h
    rw [without_eq_self h]

/-! ## Blanks at the ends -/

theorem isSpace_high {u : UInt16} (h : isHigh u = true) : isSpace u = false := by
  rw [isHigh_iff] at h
  simp only [isSpace, Bool.or_eq_false_iff, Bool.and_eq_false_iff, decide_eq_false_iff_not]
  omega

theorem isSpace_low {u : UInt16} (h : isLow u = true) : isSpace u = false := by
  rw [isLow_iff] at h
  simp only [isSpace, Bool.or_eq_false_iff, Bool.and_eq_false_iff, decide_eq_false_iff_not]
  omega

/-- The last unit of a code point is blank when one of its units is. -/
theorem last_point {s p : Units} (h : p ∈ points s) : (∀ u ∈ p.getLast?, isSpace u = false) ↔ p.any isSpace = false := by
  rcases points_cases h with ⟨u, rfl⟩ | ⟨u, l, hu, hl, rfl⟩
  · simp
  · simp [isSpace_high hu, isSpace_low hl]

theorem trim_eq_of_length {s : Units} (h : (trim s).length = s.length) : trim s = s := by
  have hpre : trim s <+: s.dropWhile isSpace := List.rdropWhile_prefix isSpace _
  have hsuf : s.dropWhile isSpace <:+ s := List.dropWhile_suffix isSpace
  have hlen : (s.dropWhile isSpace).length = s.length := le_antisymm hsuf.length_le (h ▸ hpre.length_le)
  exact (hpre.eq_of_length (h.trans hlen.symm)).trans (hsuf.eq_of_length hlen)

theorem Trimmed.head_cut {s : Units} (h : Trimmed s) (n : Nat) : ∀ u ∈ (cut n s).head?, isSpace u = false := by
  intro u hu
  apply h.head u
  rw [← cut_append n s, List.head?_append, Option.mem_def.mp hu]
  rfl

/-- What is cut off a trimmed string is trimmed, unless the cut comes after a blank. -/
theorem Trimmed.cut_iff {s : Units} (h : Trimmed s) (n : Nat) :
    Trimmed (cut (n + 1) s) ↔ ∀ p, (points s)[n]? = some p → p.any isSpace = false := by
  rcases Nat.lt_or_ge n (points s).length with hlt | hge
  · have hp : (points s)[n]? = some (points s)[n] := List.getElem?_eq_getElem hlt
    have hmem : (points s)[n] ∈ points s := List.getElem_mem hlt
    have hlast : (cut (n + 1) s).getLast? = (points s)[n].getLast? := by
      rw [cut, ← List.take_concat_get' _ n hlt, List.flatten_append, List.flatten_singleton,
        List.getLast?_append_of_ne_nil _ (points_ne_nil hmem)]
    have hiff : (∀ u ∈ (cut (n + 1) s).getLast?, isSpace u = false) ↔ (points s)[n].any isSpace = false := by
      rw [hlast]
      exact last_point hmem
    constructor
    · intro ht p hn
      rw [hp] at hn
      obtain rfl := Option.some.inj hn
      exact hiff.mp ht.last
    · exact fun hn => ⟨h.head_cut (n + 1), hiff.mpr (hn _ hp)⟩
  · rw [cut_of_le (by omega)]
    refine iff_of_true h fun p hn => ?_
    rw [List.getElem?_eq_none hge] at hn
    cases hn

end EncedoChat.Units
