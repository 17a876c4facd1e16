import EncedoChat.Lib.Points

/-!
# Code points replaced, dropped and counted

A string some of whose code points are replaced by one unit, what is dropped at its ends, and the bytes that its first
units take.
-/

namespace EncedoChat.Units

/-- What is no half of a pair. -/
def Whole (u : UInt16) : Prop := isHigh u = false ∧ isLow u = false

/-! ## Pieces of a string -/

theorem points_cons_inv {s p : Units} {l : List Units} (h : points s = p :: l) : ∃ t, s = p ++ t ∧ points t = l := by
  fun_induction points s with
  | case1 => cases h
  | case2 u =>
      obtain ⟨rfl, rfl⟩ := List.cons.inj h
      exact ⟨[], rfl, rfl⟩
  | case3 u v us hpair ih =>
      obtain ⟨rfl, rfl⟩ := List.cons.inj h
      exact ⟨us, rfl, rfl⟩
  | case4 u v us hpair ih =>
      obtain ⟨rfl, rfl⟩ := List.cons.inj h
      exact ⟨v :: us, rfl, rfl⟩

theorem mem_points_of_whole {s : Units} {u : UInt16} (h : u ∈ s) (hu : Whole u) : [u] ∈ points s := by
  rw [← flatten_points s] at h
  obtain ⟨p, hp, hup⟩ := List.mem_flatten.mp h
  rcases points_cases hp with ⟨v, rfl⟩ | ⟨v, l, hv, hl, rfl⟩
  · rwa [List.mem_singleton.mp hup]
  · rcases List.mem_cons.mp hup with rfl | hup
    · exact absurd hv (by simp [hu.1])
    · rw [List.mem_singleton.mp hup, Whole, hl] at hu
      exact absurd hu.2 (by simp)

theorem points_concat_whole {u : UInt16} (hu : Whole u) (s : Units) : points (s ++ [u]) = points s ++ [[u]] :=
  points_append fun v hv => by
    obtain rfl := Option.some.inj hv
    exact hu.2

/-! ## Dropped at an end -/

variable {q : UInt16 → Bool}

/-- Of a pair neither half is dropped. -/
theorem any_point {s p : Units} (hq : ∀ u, q u = true → Whole u) (h : p ∈ points s) :
    p.any q = true ↔ ∃ u, p = [u] ∧ q u = true := by
  rcases points_cases h with ⟨u, rfl⟩ | ⟨u, l, hu, hl, rfl⟩
  · simp
  · have hnot : q u = false ∧ q l = false := by
      refine ⟨Bool.eq_false_iff.mpr fun h => ?_, Bool.eq_false_iff.mpr fun h => ?_⟩
      · exact absurd hu (by simp [(hq u h).1])
      · exact absurd hl (by simp [(hq l h).2])
    simp [hnot]

theorem points_dropWhile (hq : ∀ u, q u = true → Whole u) (s : Units) :
    points (s.dropWhile q) = (points s).dropWhile fun p => p.any q := by
  induction s with
  | nil => rfl
  | cons u s ih =>
      by_cases hu : q u = true
      · rw [List.dropWhile_cons_of_pos hu, points_cons (hq u hu).1, List.dropWhile_cons_of_pos (by simpa using hu), ih]
      · rw [List.dropWhile_cons_of_neg hu]
        cases hp : points (u :: s) with
        | nil => rfl
        | cons p ps =>
            rw [List.dropWhile_cons_of_neg]
            intro hany
            obtain ⟨v, rfl, hv⟩ := (any_point hq (s := u :: s) (hp ▸ List.mem_cons_self)).mp hany
            obtain ⟨t, ht, -⟩ := points_cons_inv hp
            obtain ⟨rfl, -⟩ := List.cons.inj ht
            exact hu hv

theorem points_rdropWhile (hq : ∀ u, q u = true → Whole u) (s : Units) :
    points (s.rdropWhile q) = (points s).rdropWhile fun p => p.any q := by
  induction s using List.reverseRecOn with
  | nil => rfl
  | append_singleton s u ih =>
      by_cases hu : q u = true
      · rw [List.rdropWhile_concat_pos _ _ _ hu, points_concat_whole (hq u hu), List.rdropWhile_concat_pos, ih]
        simpa using hu
      · rw [List.rdropWhile_concat_neg _ _ _ hu]
        cases hp : points (s ++ [u]) using List.reverseRecOn with
        | nil => rfl
        | append_singleton ps p =>
            rw [List.rdropWhile_concat_neg]
            intro hany
            obtain ⟨v, rfl, hv⟩ := (any_point hq (s := s ++ [u]) (by simp [hp])).mp hany
            have hflat := flatten_points (s ++ [u])
            rw [hp, List.flatten_append, List.flatten_singleton] at hflat
            obtain ⟨-, hvu⟩ := List.append_inj' hflat rfl
            obtain rfl := List.singleton_inj.mp hvu
            exact hu hv

theorem whole_space {u : UInt16} (h : isSpace u = true) : Whole u := by
  refine ⟨Bool.eq_false_iff.mpr fun hh => ?_, Bool.eq_false_iff.mpr fun hl => ?_⟩
  · simp [isSpace_high hh] at h
  · simp [isSpace_low hl] at h

theorem points_trim (s : Units) : points (trim s) =
    ((points s).dropWhile fun p => p.any isSpace).rdropWhile fun p => p.any isSpace := by
  rw [trim, points_rdropWhile fun _ => whole_space, points_dropWhile fun _ => whole_space]

/-! ## Replaced by one unit -/

variable {bad : Units → Bool} {mark : UInt16}

/-- A code point, or the mark that stands for it. -/
def marked (bad : Units → Bool) (mark : UInt16) (p : Units) : Units := if bad p then [mark] else p

/-- `s.replace(/[…]/gu, mark)` -/
def replaced (bad : Units → Bool) (mark : UInt16) (s : Units) : Units := ((points s).map (marked bad mark)).flatten

theorem replaced_cons {u : UInt16} (hu : isHigh u = false) (s : Units) :
    replaced bad mark (u :: s) = marked bad mark [u] ++ replaced bad mark s := by
  rw [replaced, points_cons hu, List.map_cons, List.flatten_cons]
  rfl

theorem clean_replaced (hm : Whole mark) {s : Units} (hs : Clean s) : Clean (replaced bad mark s) := by
  intro v hv
  cases hp : points s with
  | nil =>
      rw [replaced, hp] at hv
      cases hv
  | cons p ps =>
      obtain ⟨t, rfl, -⟩ := points_cons_inv hp
      rw [replaced, hp, List.map_cons, List.flatten_cons, marked] at hv
      split at hv
      · obtain rfl := Option.some.inj hv
        exact hm.2
      · cases p with
        | nil => exact absurd rfl (points_ne_nil (s := [] ++ t) (hp ▸ List.mem_cons_self))
        | cons w p => exact hs v hv

/-- A mark joins with nothing. -/
theorem points_replaced (hm : Whole mark) (s : Units) : points (replaced bad mark s) = (points s).map (marked bad mark) := by
  have hmark : ∀ t, points (mark :: t) = [mark] :: points t := points_cons hm.1
  fun_induction points s with
  | case1 => simp [replaced, points]
  | case2 u =>
      by_cases hu : bad [u] = true <;> simp [replaced, points, marked, hu]
  | case3 u l us hpair ih =>
      have hrest : replaced bad mark (u :: l :: us) = marked bad mark [u, l] ++ replaced bad mark us := by
        rw [replaced, points, if_pos hpair, List.map_cons, List.flatten_cons]
        rfl
      rw [hrest, List.map_cons, ← ih, marked]
      split
      · exact hmark _
      · rw [List.cons_append, List.cons_append, points, if_pos hpair]
        rfl
  | case4 u l us hpair ih =>
      have hrest : replaced bad mark (u :: l :: us) = marked bad mark [u] ++ replaced bad mark (l :: us) := by
        rw [replaced, points, if_neg hpair, List.map_cons, List.flatten_cons]
        rfl
      rw [hrest, List.map_cons, ← ih, marked]
      split
      · exact hmark _
      · by_cases hu : isHigh u = true
        · have hl : Clean (l :: us) := by
            intro v hv
            obtain rfl := Option.some.inj hv
            rw [hu, Bool.true_and] at hpair
            exact Bool.eq_false_iff.mpr hpair
          rw [points_append (clean_replaced hm hl)]
          rfl
        · exact points_cons (Bool.eq_false_iff.mpr hu) _

/-- A unit of the replaced string that is no mark and no half of a pair stood there. -/
theorem replaced_eq_cons {u : UInt16} (hu : Whole u) (hne : u ≠ mark) {s t : Units} :
    replaced bad mark s = u :: t ↔ ∃ s', s = u :: s' ∧ bad [u] = false ∧ replaced bad mark s' = t := by
  constructor
  · intro h
    cases hp : points s with
    | nil =>
        rw [replaced, hp] at h
        cases h
    | cons p ps =>
        obtain ⟨s', rfl, hs'⟩ := points_cons_inv hp
        have hmem : p ∈ points (p ++ s') := hp ▸ List.mem_cons_self
        rw [replaced, hp, List.map_cons, List.flatten_cons, marked] at h
        split at h
        · exact absurd (List.cons.inj h).1.symm hne
        · rename_i hbad
          rcases points_cases hmem with ⟨v, rfl⟩ | ⟨v, l, hv, -, rfl⟩
          · obtain ⟨rfl, rfl⟩ := List.cons.inj h
            exact ⟨s', rfl, Bool.eq_false_iff.mpr hbad, by rw [replaced, hs']; rfl⟩
          · obtain ⟨rfl, -⟩ := List.cons.inj h
            exact absurd hv (by simp [hu.1])
  · rintro ⟨s', rfl, hbad, rfl⟩
    rw [replaced_cons hu.1, marked, if_neg (by simp [hbad])]
    rfl

theorem replaced_eq_append {xs : Units} (hxs : ∀ u ∈ xs, Whole u ∧ u ≠ mark) {s t : Units} :
    replaced bad mark s = xs ++ t ↔ ∃ s', s = xs ++ s' ∧ (∀ u ∈ xs, bad [u] = false) ∧ replaced bad mark s' = t := by
  induction xs generalizing s with
  | nil => simp
  | cons u xs ih =>
      obtain ⟨hu, hne⟩ := hxs u List.mem_cons_self
      rw [List.cons_append, replaced_eq_cons hu hne]
      constructor
      · rintro ⟨s', rfl, hbad, h⟩
        obtain ⟨s'', rfl, hall, hs''⟩ := (ih fun v hv => hxs v (List.mem_cons_of_mem u hv)).mp h
        exact ⟨s'', rfl, by simpa using ⟨hbad, hall⟩, hs''⟩
      · rintro ⟨s', rfl, hall, h⟩
        have hall' := List.forall_mem_cons.mp hall
        exact ⟨xs ++ s', rfl, hall'.1, (ih fun v hv => hxs v (List.mem_cons_of_mem u hv)).mpr ⟨s', rfl, hall'.2, h⟩⟩

/-- What is dropped of the replaced string was there. -/
theorem any_marked (hq : q mark = false) : (fun p => List.any p q) ∘ marked bad mark = fun p => !bad p && p.any q := by
  funext p
  rw [Function.comp_apply, marked]
  split <;> simp_all

theorem rdropWhile_map {α β : Type} (f : α → β) (r : β → Bool) (l : List α) :
    (l.map f).rdropWhile r = (l.rdropWhile (r ∘ f)).map f := by
  simp [List.rdropWhile, List.dropWhile_map, ← List.map_reverse]

/-! ## Free of them -/

/-- None of its code points is bad. -/
def Free (bad : Units → Bool) (s : Units) : Prop := ∀ p ∈ points s, bad p = false

theorem bad_marked (hmark : bad [mark] = false) (p : Units) : bad (marked bad mark p) = false := by
  rw [marked]
  split
  · exact hmark
  · rename_i hp
    exact Bool.eq_false_iff.mpr hp

/-- The first units of a string may end in the first half of a pair. -/
theorem Free.take (hbad : ∀ u, isHigh u = true → bad [u] = false) {s : Units} (h : Free bad s) (n : Nat) :
    Free bad (s.take n) := by
  unfold Free at h ⊢
  fun_induction points s generalizing n with
  | case1 => simp [points]
  | case2 u => cases n <;> simp_all [points]
  | case3 u l us hpair ih =>
      obtain ⟨hhead, hrest⟩ := List.forall_mem_cons.mp h
      rcases n with _ | _ | n
      · simp [points]
      · simpa [points] using hbad u (Bool.and_eq_true_iff.mp hpair).1
      · rw [List.take_succ_cons, List.take_succ_cons, points, if_pos hpair]
        exact List.forall_mem_cons.mpr ⟨hhead, ih hrest n⟩
  | case4 u l us hpair ih =>
      obtain ⟨hhead, hrest⟩ := List.forall_mem_cons.mp h
      rcases n with _ | _ | n
      · simp [points]
      · simpa [points] using hhead
      · rw [List.take_succ_cons, List.take_succ_cons, points, if_neg hpair]
        exact List.forall_mem_cons.mpr ⟨hhead, List.take_succ_cons ▸ ih hrest (n + 1)⟩

theorem Free.append {s t : Units} (ht : Clean t) (h : Free bad s) (h' : Free bad t) : Free bad (s ++ t) := by
  intro p hp
  rw [points_append ht] at hp
  exact (List.mem_append.mp hp).elim (h p) (h' p)

theorem Free.right {s t : Units} (ht : Clean t) (h : Free bad (s ++ t)) : Free bad t := by
  intro p hp
  exact h p (by rw [points_append ht]; exact List.mem_append_right _ hp)

/-! ## Bytes -/

/-- The bytes that the first `n` units of these code points take; half a pair takes those of its replacement. -/
def stored : Nat → List Units → Nat
  | _, [] => 0
  | 0, _ :: _ => 0
  | n + 1, p :: ps =>
    if p.length = 1 then (utf8Point p).length + stored n ps
    else if n = 0 then 3 else (utf8Point p).length + stored (n - 1) ps

@[simp] theorem stored_zero (l : List Units) : stored 0 l = 0 := by cases l <;> rfl

theorem length_utf8_half {u : UInt16} (h : isHigh u = true) : (utf8 [u]).length = 3 := by
  have hn := (isHigh_iff u).mp h
  simp only [utf8, points, List.flatMap_cons, List.flatMap_nil, List.append_nil, utf8Point]
  rw [if_neg (by omega), if_neg (by omega), if_pos (by simp [h])]
  rfl

theorem length_utf8_take (n : Nat) (s : Units) : (utf8 (s.take n)).length = stored n (points s) := by
  have hcons : ∀ {p t : Units} {l : List Units}, points t = p :: l →
      (utf8 t).length = (utf8Point p).length + (l.flatMap utf8Point).length := by
    intro p t l h
    rw [utf8, h, List.flatMap_cons, List.length_append]
  fun_induction points s generalizing n with
  | case1 => simp [utf8, points, stored]
  | case2 u => cases n <;> simp [utf8, points, stored]
  | case3 u l us hpair ih =>
      rcases n with _ | _ | n
      · simp [utf8, points, stored]
      · simpa [stored] using length_utf8_half (Bool.and_eq_true_iff.mp hpair).1
      · have hpoints : points (u :: l :: us.take n) = [u, l] :: points (us.take n) := by rw [points, if_pos hpair]
        rw [List.take_succ_cons, List.take_succ_cons, hcons hpoints, ← utf8, ih n]
        simp [stored]
  | case4 u l us hpair ih =>
      rcases n with _ | _ | n
      · simp [utf8, points, stored]
      · simp [utf8, points, stored]
      · have hpoints : points (u :: l :: us.take n) = [u] :: points (l :: us.take n) := by rw [points, if_neg hpair]
        have hrest := ih (n + 1)
        rw [List.take_succ_cons] at hrest
        rw [List.take_succ_cons, List.take_succ_cons, hcons hpoints, ← utf8, hrest]
        simp [stored]

end EncedoChat.Units
