/-!
# Runs of a system

A system takes actions one after another; `ok` says which actions a state admits. Conditions on a run
are conditions on its steps.
-/

namespace EncedoChat

universe u v

variable {σ : Type u} {α : Type v}

/-- The states a run reaches from `s₀` when every step satisfies `ok`. -/
inductive Reach (act : σ → α → σ) (ok : σ → α → Prop) (s₀ : σ) : σ → Prop
  | start : Reach act ok s₀ s₀
  | step {s : σ} (a : α) : Reach act ok s₀ s → ok s a → Reach act ok s₀ (act s a)

namespace Reach

variable {act : σ → α → σ} {ok ok' : σ → α → Prop} {s₀ s : σ}

/-- What holds at the start and is kept by every admitted step holds wherever a run arrives. -/
theorem invariant {I : σ → Prop} (h₀ : I s₀) (hstep : ∀ s a, I s → ok s a → I (act s a))
    (h : Reach act ok s₀ s) : I s := by
  induction h with
  | start => exact h₀
  | step a _ hok ih => exact hstep _ a ih hok

/-- As `invariant`, where the step may use that its state is reached. -/
theorem invariant' {I : σ → Prop} (h₀ : I s₀)
    (hstep : ∀ s a, Reach act ok s₀ s → I s → ok s a → I (act s a)) (h : Reach act ok s₀ s) : I s := by
  induction h with
  | start => exact h₀
  | step a hr hok ih => exact hstep _ a hr ih hok

theorem mono (hle : ∀ s a, ok s a → ok' s a) (h : Reach act ok s₀ s) : Reach act ok' s₀ s := by
  induction h with
  | start => exact .start
  | step a _ hok ih => exact .step a ih (hle _ _ hok)

/-- Actions chosen from the state are actions. -/
theorem choose {β : Type}  (f : σ → β → α) (h : Reach (fun s b => act s (f s b)) (fun s b => ok s (f s b)) s₀ s) :
    Reach act ok s₀ s := by
  induction h with
  | start => exact .start
  | step b _ hok ih => exact .step (f _ b) ih hok

theorem trans {s₁ s₂ : σ} (h₁ : Reach act ok s₀ s₁) (h₂ : Reach act ok s₁ s₂) : Reach act ok s₀ s₂ := by
  induction h₂ with
  | start => exact h₁
  | step a _ hok ih => exact .step a ih hok

end Reach

/-- Every step of a list of actions is admitted where it is taken. -/
def Admits (act : σ → α → σ) (ok : σ → α → Prop) : σ → List α → Prop
  | _, [] => True
  | s, a :: as => ok s a ∧ Admits act ok (act s a) as

instance Admits.decidable (act : σ → α → σ) (ok : σ → α → Prop) [∀ s a, Decidable (ok s a)] :
    (s : σ) → (as : List α) → Decidable (Admits act ok s as)
  | _, [] => isTrue trivial
  | s, a :: as =>
    have := Admits.decidable act ok (act s a) as
    inferInstanceAs (Decidable (ok s a ∧ Admits act ok (act s a) as))

theorem Admits.of_forall {act : σ → α → σ} {ok : σ → α → Prop} (h : ∀ s a, ok s a) (s : σ) (as : List α) :
    Admits act ok s as := by
  induction as generalizing s with
  | nil => trivial
  | cons a as ih => exact ⟨h s a, ih (act s a)⟩

/-- Two ways to say which steps are admitted. -/
theorem Admits.congr {act : σ → α → σ} {ok ok' : σ → α → Prop} (h : ∀ s a, ok s a ↔ ok' s a) (s : σ) (as : List α) :
    Admits act ok s as ↔ Admits act ok' s as := by
  induction as generalizing s with
  | nil => exact Iff.rfl
  | cons a as ih => exact and_congr (h s a) (ih (act s a))

/-- An admitted list of actions is a run. -/
theorem Admits.reach {act : σ → α → σ} {ok : σ → α → Prop} {s₀ s : σ} {as : List α}
    (h₀ : Reach act ok s₀ s) (h : Admits act ok s as) : Reach act ok s₀ (as.foldl act s) := by
  induction as generalizing s with
  | nil => exact h₀
  | cons a as ih => exact ih (.step a h₀ h.1) h.2

/-- The invariant makes a state good, admitted steps keep it, and only they lead to good states: then the states of a run
are all good exactly when its steps are all admitted. -/
theorem Admits.iff_good {act : σ → α → σ} {ok : σ → α → Prop} {I Good : σ → Prop} (hgood : ∀ s, I s → Good s)
    (hkeep : ∀ s a, I s → ok s a → I (act s a)) (honly : ∀ s a, I s → Good (act s a) → ok s a) {s : σ} (h : I s)
    (as : List α) : (∀ bs, bs <+: as → Good (bs.foldl act s)) ↔ Admits act ok s as := by
  induction as generalizing s with
  | nil =>
      refine ⟨fun _ => trivial, fun _ bs hbs => ?_⟩
      obtain rfl := List.prefix_nil.mp hbs
      exact hgood s h
  | cons a as ih =>
      constructor
      · intro hall
        have hok : ok s a := honly s a h (hall [a] (List.cons_prefix_cons.mpr ⟨rfl, List.nil_prefix⟩))
        exact ⟨hok, (ih (hkeep s a h hok)).mp fun bs hbs => hall (a :: bs) (List.cons_prefix_cons.mpr ⟨rfl, hbs⟩)⟩
      · rintro ⟨hok, hrest⟩ bs hbs
        cases bs with
        | nil => exact hgood s h
        | cons b bs =>
            obtain ⟨rfl, hrun⟩ := List.cons_prefix_cons.mp hbs
            exact (ih (hkeep s b h hok)).mpr hrest bs hrun

/-! ## Two systems under the same actions -/

universe w x

variable {τ : Type w} {β : Type x}

/-- What a system shows, call by call. -/
def outputs (act : σ → α → σ × β) : σ → List α → List β
  | _, [] => []
  | s, a :: as => (act s a).2 :: outputs act (act s a).1 as

/-- Two systems that agree on a call exactly when it is `ok`, and stay related as long as it is, show the
same along a run exactly when every call of it is. What is `ok` is read off both. -/
theorem outputs_eq_iff_both {act : σ → α → σ × β} {act' : τ → α → τ × β} {R : σ → τ → Prop} {ok : σ × τ → α → Prop}
    (hout : ∀ s t a, R s t → ((act s a).2 = (act' t a).2 ↔ ok (s, t) a))
    (hrel : ∀ s t a, R s t → ok (s, t) a → R (act s a).1 (act' t a).1) {s : σ} {t : τ} (h : R s t) (as : List α) :
    outputs act s as = outputs act' t as ↔ Admits (fun p a => ((act p.1 a).1, (act' p.2 a).1)) ok (s, t) as := by
  induction as generalizing s t with
  | nil => simp [outputs, Admits]
  | cons a as ih =>
      rw [outputs, outputs, List.cons.injEq, Admits, hout s t a h]
      constructor
      · rintro ⟨hok, hrest⟩
        exact ⟨hok, (ih (hrel s t a h hok)).mp hrest⟩
      · rintro ⟨hok, hrest⟩
        exact ⟨hok, (ih (hrel s t a h hok)).mpr hrest⟩

/-- What is read off the second of two systems does not ask for the first. -/
theorem Admits.snd (act : σ → α → σ) (act' : τ → α → τ) (ok : τ → α → Prop) (s : σ) (t : τ) (as : List α) :
    Admits (fun p a => (act p.1 a, act' p.2 a)) (fun p a => ok p.2 a) (s, t) as ↔ Admits act' ok t as := by
  induction as generalizing s t with
  | nil => exact Iff.rfl
  | cons a as ih => exact and_congr_right fun _ => ih (act s a) (act' t a)

theorem outputs_eq_iff {act : σ → α → σ × β} {act' : τ → α → τ × β} {R : σ → τ → Prop} {ok : τ → α → Prop}
    (hout : ∀ s t a, R s t → ((act s a).2 = (act' t a).2 ↔ ok t a))
    (hrel : ∀ s t a, R s t → ok t a → R (act s a).1 (act' t a).1) {s : σ} {t : τ} (h : R s t) (as : List α) :
    outputs act s as = outputs act' t as ↔ Admits (fun t a => (act' t a).1) ok t as := by
  have hboth : outputs act s as = outputs act' t as ↔
      Admits (fun p a => ((act p.1 a).1, (act' p.2 a).1)) (fun p a => ok p.2 a) (s, t) as :=
    outputs_eq_iff_both hout hrel h as
  exact hboth.trans (Admits.snd (fun s a => (act s a).1) (fun t a => (act' t a).1) ok s t as)

end EncedoChat
