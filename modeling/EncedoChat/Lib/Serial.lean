/-!
# Calls that queue on one object

An asynchronous call runs in segments, from one await to the next; between two segments anything else may
run. An object that queues its calls starts one only when the one before has settled, and then each
call does to the object what it does alone, however it is cut.
-/

namespace EncedoChat

/-- What a call still has to run: its answer, or a segment and what it then awaits. -/
inductive Prog (σ ρ : Type) where
  | done (r : ρ)
  | seg (f : σ → σ) (next : σ → Prog σ ρ)

/-- Run to the end without interruption. -/
def Prog.run {σ ρ : Type} : Prog σ ρ → σ → σ × ρ
  | .done r, s => (s, r)
  | .seg f next, s => (next s).run (f s)

/-- An object and its queue. -/
structure Serial (κ σ ρ : Type) where
  state : σ
  running : Option (κ × Prog σ ρ)
  waiting : List κ

namespace Serial

variable {κ σ ρ : Type}

def idle (s : σ) : Serial κ σ ρ := ⟨s, none, []⟩

def issue (q : Serial κ σ ρ) (k : κ) : Serial κ σ ρ := { q with waiting := q.waiting ++ [k] }

/-- The next turn of the object: the next call starts, or the running one goes on, or it settles. -/
def turn (prog : κ → Prog σ ρ) (q : Serial κ σ ρ) : Serial κ σ ρ × Option (κ × ρ) :=
  match q.running with
  | none =>
    match q.waiting with
    | [] => (q, none)
    | k :: ks => ({ q with running := some (k, prog k), waiting := ks }, none)
  | some (k, .seg f next) => ({ q with state := f q.state, running := some (k, next q.state) }, none)
  | some (k, .done r) => ({ q with running := none }, some (k, r))

/-- The object is where the settled calls left it at `b`, or the running call will take it from here to
where it takes `b`. -/
def From (exec : κ → σ → σ × ρ) (b : σ) (q : Serial κ σ ρ) : Prop :=
  match q.running with
  | none => q.state = b
  | some (k, p) => p.run q.state = exec k b

variable {exec : κ → σ → σ × ρ} {prog : κ → Prog σ ρ} {b : σ} {q : Serial κ σ ρ}

theorem From.idle (s : σ) : From exec s (idle s : Serial κ σ ρ) := rfl

theorem From.issue (h : From exec b q) (k : κ) : From exec b (q.issue k) := h

/-- A call that settles has done to the state what it does alone. -/
theorem From.turn (hprog : ∀ k s, (prog k).run s = exec k s) (h : From exec b q) :
    match q.turn prog with
    | (q', none) => From exec b q'
    | (q', some (k, r)) => (exec k b).2 = r ∧ From exec (exec k b).1 q' := by
  unfold Serial.turn
  cases hr : q.running with
  | none =>
      rw [From, hr] at h
      cases hw : q.waiting with
      | nil => simpa [From, hr] using h
      | cons k ks =>
          have hb : q.state = b := h
          simp only [From, hprog, hb]
  | some kp =>
      obtain ⟨k, p⟩ := kp
      rw [From, hr] at h
      cases p with
      | seg f next => exact h
      | done r =>
          have hrun : (q.state, r) = exec k b := h
          simp only [From, ← hrun, true_and]

/-- The call whose answer is due. -/
def settling (q : Serial κ σ ρ) : Option κ :=
  match q.running with
  | some (k, .done _) => some k
  | _ => none

theorem turn_settles {q' : Serial κ σ ρ} {k : κ} {r : ρ} (h : q.turn prog = (q', some (k, r))) :
    q.settling = some k := by
  unfold Serial.turn at h
  unfold settling
  cases hr : q.running with
  | none =>
      rw [hr] at h
      cases hw : q.waiting <;> simp [hw] at h
  | some kp =>
      obtain ⟨k', p⟩ := kp
      rw [hr] at h
      cases p with
      | seg f next => simp at h
      | done r' =>
          simp only [Prod.mk.injEq, Option.some.injEq] at h
          rw [h.2.1]

end Serial

end EncedoChat
