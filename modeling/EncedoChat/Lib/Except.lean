/-!
# Calls that may throw
-/

namespace EncedoChat

/-- `if (c) throw e` -/
def refuse {ε : Type} (c : Prop) [Decidable c] (e : ε) : Except ε Unit := if c then .error e else .ok ()

section
variable {ε α β : Type}

theorem bind_ok {x : Except ε α} {f : α → Except ε β} {b : β} :
    (x >>= f) = .ok b ↔ ∃ a, x = .ok a ∧ f a = .ok b := by
  cases x with
  | error e => constructor <;> simp [bind, Except.bind]
  | ok a => simp [bind, Except.bind]

theorem bind_error {x : Except ε α} {f : α → Except ε β} {e : ε} :
    (x >>= f) = .error e ↔ x = .error e ∨ ∃ a, x = .ok a ∧ f a = .error e := by
  cases x with
  | error e => constructor <;> simp [bind, Except.bind]
  | ok a => simp [bind, Except.bind]

theorem exists_unit {p : Unit → Prop} : (∃ a, p a) ↔ p () := ⟨fun ⟨_, h⟩ => h, fun h => ⟨(), h⟩⟩

theorem elim_ok {x : Option α} {e : ε} {a : α} : x.elim (Except.error e) Except.ok = .ok a ↔ x = some a := by
  cases x <;> simp

theorem refuse_ok {c : Prop} {_ : Decidable c} {e : ε} : refuse c e = .ok () ↔ ¬c := by
  unfold refuse
  split <;> simp [*]

theorem guard_ok {c : Prop} [Decidable c] {e : ε} {x : Except ε α} {a : α} :
    (if c then .error e else x) = .ok a ↔ ¬c ∧ x = .ok a := by
  split <;> simp [*]

/-- Every call of a loop returned what it should. -/
theorem mapM_ok {f : α → Except ε β} {g : α → β} {l : List α} (h : ∀ a ∈ l, f a = .ok (g a)) :
    l.mapM f = .ok (l.map g) := by
  induction l with
  | nil => rfl
  | cons a l ih =>
      rw [List.mapM_cons]
      simp only [bind_ok]
      exact ⟨g a, h a List.mem_cons_self, l.map g, ih fun b hb => h b (List.mem_cons_of_mem a hb), rfl⟩

theorem eq_map_of_mapM {f : α → Except ε β} {g : α → β} {l : List α} {bs : List β} (h : l.mapM f = .ok bs)
    (hg : ∀ a ∈ l, ∀ b, f a = .ok b → b = g a) : bs = l.map g := by
  induction l generalizing bs with
  | nil => exact (Except.ok.inj h).symm
  | cons a l ih =>
      rw [List.mapM_cons] at h
      simp only [bind_ok] at h
      obtain ⟨b, hb, cs, hcs, hbs⟩ := h
      obtain rfl := Except.ok.inj hbs
      rw [List.map_cons, hg a List.mem_cons_self b hb, ih hcs fun c hc => hg c (List.mem_cons_of_mem a hc)]

theorem exists_of_mapM {f : α → Except ε β} {l : List α} {bs : List β} (h : l.mapM f = .ok bs) :
    ∀ a ∈ l, ∃ b, f a = .ok b := by
  induction l generalizing bs with
  | nil => simp
  | cons a l ih =>
      rw [List.mapM_cons] at h
      simp only [bind_ok] at h
      obtain ⟨b, hb, cs, hcs, -⟩ := h
      exact List.forall_mem_cons.mpr ⟨⟨b, hb⟩, ih hcs⟩

end

end EncedoChat
