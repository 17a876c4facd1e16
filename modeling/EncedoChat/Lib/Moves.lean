import EncedoChat.Lib.OrdMap
import EncedoChat.Lib.Run

/-!
# Records that move to new names

A move copies a record to its new name, unless the name is taken, and then drops the old one. The writes of many moves,
cut off anywhere, leave every record readable under one of its names, and done again they finish.
-/

namespace EncedoChat.Moves

variable {κ ν ρ : Type} [DecidableEq κ]

inductive Write (κ ν : Type) where
  | set (k : κ) (v : ν)
  | remove (k : κ)

def Write.apply (m : OrdMap κ ν) : Write κ ν → OrdMap κ ν
  | set k v => m.set k v
  | remove k => m.delete k

/-- The writes of one move; a store that cannot delete keeps the old name. -/
def move (canRemove : Bool) (m : OrdMap κ ν) (from_ to_ : κ) : List (Write κ ν) :=
  match m.get from_ with
  | none => []
  | some v => (if (m.get to_).isNone then [.set to_ v] else []) ++ (if canRemove then [.remove from_] else [])

/-- The writes of moves one after another. -/
def trace (canRemove : Bool) (old new : ρ → κ) : List ρ → OrdMap κ ν → List (Write κ ν)
  | [], _ => []
  | r :: rs, m =>
    let ws := move canRemove m (old r) (new r)
    ws ++ trace canRemove old new rs (ws.foldl Write.apply m)

/-- No two records share a name, and no name is both old and new. -/
structure Apart (old new : ρ → κ) : Prop where
  old_inj : Function.Injective old
  new_inj : Function.Injective new
  disjoint : ∀ r r', old r ≠ new r'

/-- What a record holds, under its new name or else under its old one. -/
def held (old new : ρ → κ) (m : OrdMap κ ν) (r : ρ) : Option ν := (m.get (new r)).or (m.get (old r))

/-- A write of a move that has come this far. -/
inductive Legal (old new : ρ → κ) (m : OrdMap κ ν) : Write κ ν → Prop
  | copy {r : ρ} {v : ν} : m.get (old r) = some v → m.get (new r) = none → Legal old new m (.set (new r) v)
  | drop {r : ρ} : (m.get (old r)).isSome → (m.get (new r)).isSome → Legal old new m (.remove (old r))

variable {old new : ρ → κ} {m : OrdMap κ ν} {w : Write κ ν} {canRemove : Bool}

/-! ## One write -/

theorem Legal.held_apply (h : Legal old new m w) (hA : Apart old new) (r : ρ) :
    held old new (w.apply m) r = held old new m r := by
  cases h with
  | @copy r' v hold hnew =>
      rw [held, held, Write.apply, OrdMap.get_set, OrdMap.get_set, if_neg (hA.disjoint r r')]
      by_cases hr : new r = new r'
      · rw [if_pos hr, hA.new_inj hr, hold, hnew]
        rfl
      · rw [if_neg hr]
  | @drop r' hold hnew =>
      rw [held, held, Write.apply, OrdMap.get_delete, OrdMap.get_delete, if_neg (hA.disjoint r' r).symm]
      by_cases hr : old r = old r'
      · obtain ⟨v, hv⟩ := Option.isSome_iff_exists.mp hnew
        rw [if_pos hr, hA.old_inj hr, hv]
        rfl
      · rw [if_neg hr]

/-- A new name that is taken stays so, and an old name is not taken again. -/
theorem Legal.onward (h : Legal old new m w) (hA : Apart old new) (r : ρ) :
    ((m.get (new r)).isSome → ((w.apply m).get (new r)).isSome) ∧
    (m.get (old r) = none → (w.apply m).get (old r) = none) := by
  cases h with
  | @copy r' v hold hnew =>
      rw [Write.apply, OrdMap.get_set, OrdMap.get_set, if_neg (hA.disjoint r r')]
      refine ⟨fun hs => ?_, id⟩
      split
      · rfl
      · exact hs
  | @drop r' hold hnew =>
      rw [Write.apply, OrdMap.get_delete, OrdMap.get_delete, if_neg (hA.disjoint r' r).symm]
      refine ⟨id, fun hn => ?_⟩
      split
      · rfl
      · exact hn

theorem Legal.other (h : Legal old new m w) {k : κ} (hold : ∀ r, k ≠ old r) (hnew : ∀ r, k ≠ new r) :
    (w.apply m).get k = m.get k := by
  cases h with
  | copy => exact OrdMap.get_set_ne _ _ (hnew _)
  | drop => exact OrdMap.get_delete_ne _ (hold _)

/-! ## Many of them -/

abbrev LegalAll (old new : ρ → κ) (m : OrdMap κ ν) (ws : List (Write κ ν)) : Prop :=
  Admits (fun m w => Write.apply m w) (Legal old new) m ws

def applyAll (m : OrdMap κ ν) (ws : List (Write κ ν)) : OrdMap κ ν := ws.foldl Write.apply m

variable {ws : List (Write κ ν)} {r : ρ}

theorem LegalAll.held (h : LegalAll old new m ws) (hA : Apart old new) (r : ρ) :
    held old new (applyAll m ws) r = held old new m r := by
  induction ws generalizing m with
  | nil => rfl
  | cons w ws ih => exact (ih h.2).trans (h.1.held_apply hA r)

theorem LegalAll.onward (h : LegalAll old new m ws) (hA : Apart old new) (r : ρ) :
    ((m.get (new r)).isSome → ((applyAll m ws).get (new r)).isSome) ∧
    (m.get (old r) = none → (applyAll m ws).get (old r) = none) := by
  induction ws generalizing m with
  | nil => exact ⟨id, id⟩
  | cons w ws ih =>
      exact ⟨fun hs => (ih h.2).1 ((h.1.onward hA r).1 hs), fun hn => (ih h.2).2 ((h.1.onward hA r).2 hn)⟩

theorem LegalAll.other (h : LegalAll old new m ws) {k : κ} (hold : ∀ r, k ≠ old r) (hnew : ∀ r, k ≠ new r) :
    (applyAll m ws).get k = m.get k := by
  induction ws generalizing m with
  | nil => rfl
  | cons w ws ih => exact (ih h.2).trans (h.1.other hold hnew)

theorem legal_move (hA : Apart old new) (canRemove : Bool) (m : OrdMap κ ν) (r : ρ) :
    LegalAll old new m (move canRemove m (old r) (new r)) := by
  rw [move]
  cases hold : m.get (old r) with
  | none => exact trivial
  | some v =>
      dsimp only
      have hdrop : ∀ m' : OrdMap κ ν, m'.get (old r) = some v → (m'.get (new r)).isSome →
          LegalAll old new m' (if canRemove then [.remove (old r)] else []) := by
        intro m' ho hn
        split
        · exact ⟨.drop (by rw [ho]; rfl) hn, trivial⟩
        · exact trivial
      cases hnew : m.get (new r) with
      | none =>
          refine ⟨.copy hold hnew, hdrop _ ?_ ?_⟩
          · exact (OrdMap.get_set_ne _ _ (hA.disjoint r r)).trans hold
          · exact Option.isSome_iff_exists.mpr ⟨v, OrdMap.get_set_self ..⟩
      | some v' => exact hdrop m hold (by rw [hnew]; rfl)

theorem LegalAll.append {ws' : List (Write κ ν)} (h : LegalAll old new m ws) (h' : LegalAll old new (applyAll m ws) ws') :
    LegalAll old new m (ws ++ ws') := by
  induction ws generalizing m with
  | nil => exact h'
  | cons w ws ih => exact ⟨h.1, ih h.2 h'⟩

theorem LegalAll.take (h : LegalAll old new m ws) (n : Nat) : LegalAll old new m (ws.take n) := by
  induction ws generalizing m n with
  | nil => rw [List.take_nil]; exact trivial
  | cons w ws ih =>
      cases n with
      | zero => exact trivial
      | succ n => exact ⟨h.1, ih h.2 n⟩

theorem remove_ne_set {k k' : κ} {v : ν} : Write.remove k ≠ Write.set k' v := by
  intro h
  cases h

/-- An old name is given up by the write that removes it, and by no other. -/
theorem LegalAll.remove_mem_iff (h : LegalAll old new m ws) (hA : Apart old new) (r : ρ) :
    Write.remove (old r) ∈ ws ↔ (m.get (old r)).isSome ∧ (applyAll m ws).get (old r) = none := by
  induction ws generalizing m with
  | nil =>
      constructor
      · exact fun hin => absurd hin List.not_mem_nil
      · rintro ⟨hs, hn⟩
        rw [applyAll, List.foldl_nil] at hn
        rw [hn] at hs
        cases hs
  | cons w ws ih =>
      have htail : LegalAll old new (w.apply m) ws := h.2
      have hnone : (w.apply m).get (old r) = none → (applyAll (w.apply m) ws).get (old r) = none :=
        (htail.onward hA r).2
      have hih : Write.remove (old r) ∈ ws ↔ ((w.apply m).get (old r)).isSome ∧ (applyAll (w.apply m) ws).get (old r) = none :=
        ih htail
      have hcons : applyAll m (w :: ws) = applyAll (w.apply m) ws := rfl
      rw [List.mem_cons, hih, hcons]
      cases h.1 with
      | @copy r' v hold hnew =>
          have hget : ((Write.set (new r') v).apply m).get (old r) = m.get (old r) :=
            OrdMap.get_set_ne _ _ (hA.disjoint r r')
          rw [hget]
          exact ⟨fun hor => hor.resolve_left remove_ne_set, .inr⟩
      | @drop r' hold hnew =>
          by_cases hr : r' = r
          · subst hr
            have hget : ((Write.remove (old r')).apply m).get (old r') = none := OrdMap.get_delete_self ..
            exact ⟨fun _ => ⟨hold, hnone hget⟩, fun _ => .inl rfl⟩
          · have hne : old r ≠ old r' := fun heq => hr (hA.old_inj heq).symm
            have hget : ((Write.remove (old r') : Write κ ν).apply m).get (old r) = m.get (old r) :=
              OrdMap.get_delete_ne _ hne
            rw [hget]
            exact ⟨fun hor => hor.resolve_left fun heq => hne (Write.remove.inj heq), .inr⟩

/-- The trace is made of moves that have come as far as they say. -/
theorem legal_trace (hA : Apart old new) (canRemove : Bool) (rs : List ρ) (m : OrdMap κ ν) :
    LegalAll old new m (trace canRemove old new rs m) := by
  induction rs generalizing m with
  | nil => exact trivial
  | cons r rs ih => exact (legal_move hA canRemove m r).append (ih _)

theorem move_other {k from_ to_ : κ} (hf : k ≠ from_) (ht : k ≠ to_) (m : OrdMap κ ν) :
    (applyAll m (move canRemove m from_ to_)).get k = m.get k := by
  rw [move]
  cases m.get from_ with
  | none => rfl
  | some v =>
      cases (m.get to_).isNone <;> cases canRemove <;>
        simp [applyAll, Write.apply, OrdMap.get_set_ne _ _ ht, OrdMap.get_delete_ne _ hf]

/-- Moves touch their own names only. -/
theorem trace_other {k : κ} (rs : List ρ) (hrs : ∀ r ∈ rs, k ≠ old r ∧ k ≠ new r) (m : OrdMap κ ν) :
    (applyAll m (trace canRemove old new rs m)).get k = m.get k := by
  induction rs generalizing m with
  | nil => rfl
  | cons r rs ih =>
      obtain ⟨hf, ht⟩ := hrs r List.mem_cons_self
      rw [trace, applyAll, List.foldl_append]
      exact (ih (fun r' hr' => hrs r' (List.mem_cons_of_mem _ hr')) _).trans (move_other hf ht m)

/-! ## Moves that were made -/

/-- The record is under its new name, if anywhere, and nowhere else if the store can delete. -/
def Moved (canRemove : Bool) (old new : ρ → κ) (m : OrdMap κ ν) (r : ρ) : Prop :=
  m.get (new r) = held old new m r ∧ (canRemove = true → m.get (old r) = none)

theorem get_new_iff (r : ρ) : m.get (new r) = held old new m r ↔ (m.get (new r)).isSome ∨ m.get (old r) = none := by
  rw [held]
  cases m.get (new r) <;> cases m.get (old r) <;> simp

theorem moved_move (hA : Apart old new) (canRemove : Bool) (m : OrdMap κ ν) (r : ρ) :
    Moved canRemove old new (applyAll m (move canRemove m (old r) (new r))) r := by
  rw [Moved, get_new_iff, move]
  cases hold : m.get (old r) with
  | none => exact ⟨.inr hold, fun _ => hold⟩
  | some v =>
      dsimp only
      have hdrop : ∀ m' : OrdMap κ ν, (m'.get (new r)).isSome →
          ((applyAll m' (if canRemove then [.remove (old r)] else [])).get (new r)).isSome ∧
          (canRemove = true → (applyAll m' (if canRemove then [.remove (old r)] else [])).get (old r) = none) := by
        intro m' hn
        cases canRemove with
        | false => exact ⟨hn, fun h => absurd h Bool.false_ne_true⟩
        | true =>
            refine ⟨?_, fun _ => OrdMap.get_delete_self ..⟩
            exact (congrArg Option.isSome (OrdMap.get_delete_ne m' (hA.disjoint r r).symm)).trans hn
      cases hnew : m.get (new r) with
      | none =>
          have hset : ((m.set (new r) v).get (new r)).isSome := Option.isSome_iff_exists.mpr ⟨v, OrdMap.get_set_self ..⟩
          exact ⟨.inl (hdrop _ hset).1, (hdrop _ hset).2⟩
      | some v' =>
          have hs : (m.get (new r)).isSome := Option.isSome_iff_exists.mpr ⟨v', hnew⟩
          exact ⟨.inl (hdrop m hs).1, (hdrop m hs).2⟩

/-- Later moves do not undo it. -/
theorem Moved.applyAll (h : Moved canRemove old new m r) (hA : Apart old new) (hws : LegalAll old new m ws) :
    Moved canRemove old new (applyAll m ws) r := by
  obtain ⟨hs, hn⟩ := hws.onward hA r
  rw [Moved, get_new_iff] at h ⊢
  exact ⟨h.1.imp hs hn, fun hc => hn (h.2 hc)⟩

theorem moved_trace (hA : Apart old new) (canRemove : Bool) (rs : List ρ) (m : OrdMap κ ν) {r : ρ} (hr : r ∈ rs) :
    Moved canRemove old new (applyAll m (trace canRemove old new rs m)) r := by
  induction rs generalizing m with
  | nil => cases hr
  | cons r' rs ih =>
      have hsplit : applyAll m (trace canRemove old new (r' :: rs) m) =
          applyAll (applyAll m (move canRemove m (old r') (new r')))
            (trace canRemove old new rs (applyAll m (move canRemove m (old r') (new r')))) := by
        rw [trace]
        simp only [Moves.applyAll, List.foldl_append]
      rw [hsplit]
      rcases List.mem_cons.mp hr with rfl | hr
      · exact (moved_move hA canRemove m r).applyAll hA (legal_trace hA canRemove rs _)
      · exact ih _ hr

end EncedoChat.Moves
