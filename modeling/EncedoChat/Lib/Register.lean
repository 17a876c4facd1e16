/-!
# A record that is read, changed and written back

Operations on one stored record, each in three steps: it reads the record, works out the next one, and writes that.
Nothing keeps two operations apart; what a run without stale writes does to the record is what its operations do to it
one at a time.
-/

namespace EncedoChat

/-- What an operation has in hand while it waits. -/
inductive Phase (α : Type) where
  | reading (v : α)
  | writing (v : α)

inductive Mark (ω : Type) where
  | called (op : ω)
  | done (op : ω)
  deriving DecidableEq

/-- The record as it is stored, the operations that wait, and what has happened, the newest first. -/
structure Register (τ ω α : Type) where
  text : τ
  calls : List (ω × Phase α)
  log : List (Mark ω)

namespace Register

inductive Act (ω : Type) where
  | call (op : ω)
  /-- an operation goes on; what it writes may fail -/
  | resume (k : Nat) (ok : Bool)

/-- How a record is read, what it is stored as, if it is, and what an operation makes of it, if it changes it. -/
structure Kind (τ ω α : Type) where
  read : τ → α
  write : α → Option τ
  change : ω → α → Option α

variable {τ ω α : Type} (K : Kind τ ω α) (r : Register τ ω α)

def opened (t : τ) : Register τ ω α := ⟨t, [], []⟩

def act : Act ω → Register τ ω α
  | .call op => ⟨r.text, r.calls ++ [(op, .reading (K.read r.text))], .called op :: r.log⟩
  | .resume k ok =>
    match r.calls[k]? with
    | none => r
    | some (op, .reading v) =>
      match K.change op v with
      | none => ⟨r.text, r.calls.eraseIdx k, .done op :: r.log⟩
      | some v' => ⟨r.text, r.calls.eraseIdx k ++ [(op, .writing v')], r.log⟩
    | some (op, .writing v) =>
      ⟨if ok then (K.write v).getD r.text else r.text, r.calls.eraseIdx k, .done op :: r.log⟩

/-- What the operation would make of the record as it stands. -/
def made (op : ω) (v : α) : α := (K.change op v).getD v

/-- A write is kept, and it is not of a record that is there no more. -/
def Current : Act ω → Prop
  | .call _ => True
  | .resume k ok => ∀ op v, r.calls[k]? = some (op, .writing v) →
      ok = true ∧ (K.write v).isSome ∧ v = made K op (K.read r.text)

/-- What is written is read. -/
def Faithful : Prop := ∀ v t, K.write v = some t → K.read t = v

variable {K r} {r' : Register τ ω α}

/-- What a step does whose write is current. -/
inductive Steps (K : Kind τ ω α) (r r' : Register τ ω α) : Prop
  | call (op : ω) : r'.text = r.text → r'.calls = r.calls ++ [(op, .reading (K.read r.text))] →
      r'.log = .called op :: r.log → Steps K r r'
  /-- nothing to change -/
  | pass (k : Nat) (op : ω) (v : α) : r.calls[k]? = some (op, .reading v) → K.change op v = none → r'.text = r.text →
      r'.calls = r.calls.eraseIdx k → r'.log = .done op :: r.log → Steps K r r'
  | prepare (k : Nat) (op : ω) (v v' : α) : r.calls[k]? = some (op, .reading v) → K.change op v = some v' →
      r'.text = r.text → r'.calls = r.calls.eraseIdx k ++ [(op, .writing v')] → r'.log = r.log → Steps K r r'
  | write (k : Nat) (op : ω) (v : α) : r.calls[k]? = some (op, .writing v) →
      K.read r'.text = made K op (K.read r.text) → r'.calls = r.calls.eraseIdx k → r'.log = .done op :: r.log →
      Steps K r r'
  | idle : r' = r → Steps K r r'

theorem act_steps (hK : Faithful K) (a : Act ω) (ha : r.Current K a) : Steps K r (r.act K a) := by
  cases a with
  | call op => exact .call op rfl rfl rfl
  | resume k ok =>
      cases hcall : r.calls[k]? with
      | none => exact .idle (by simp only [act, hcall])
      | some c =>
          obtain ⟨op, v | v⟩ := c
          · cases hchange : K.change op v with
            | none =>
                simp only [act, hcall, hchange]
                exact .pass k op v hcall hchange rfl rfl rfl
            | some v' =>
                simp only [act, hcall, hchange]
                exact .prepare k op v v' hcall hchange rfl rfl rfl
          · obtain ⟨rfl, hwrite, hv⟩ := ha op v hcall
            obtain ⟨t, ht⟩ := Option.isSome_iff_exists.mp hwrite
            simp only [act, hcall, if_true, ht, Option.getD_some]
            refine .write k op v hcall ?_ rfl rfl
            dsimp only
            rw [hK v t ht, hv]

/-- An operation that waits was called. -/
def Called (r : Register τ ω α) : Prop := ∀ op p, (op, p) ∈ r.calls → .called op ∈ r.log

theorem Called.steps (h : r.Called) (hs : Steps K r r') : r'.Called := by
  intro op p hin
  cases hs with
  | call op' _ hcalls hlog =>
      rw [hlog]
      rw [hcalls, List.mem_append, List.mem_singleton] at hin
      rcases hin with hin | heq
      · exact List.mem_cons_of_mem _ (h op p hin)
      · obtain ⟨rfl, rfl⟩ := Prod.mk.inj heq
        exact List.mem_cons_self
  | pass k op' v _ _ _ hcalls hlog =>
      rw [hlog]
      rw [hcalls] at hin
      exact List.mem_cons_of_mem _ (h op p (List.mem_of_mem_eraseIdx hin))
  | prepare k op' v v' hcall _ _ hcalls hlog =>
      rw [hlog]
      rw [hcalls, List.mem_append, List.mem_singleton] at hin
      rcases hin with hin | heq
      · exact h op p (List.mem_of_mem_eraseIdx hin)
      · obtain ⟨rfl, rfl⟩ := Prod.mk.inj heq
        exact h op _ (List.mem_of_getElem? hcall)
  | write k op' v _ _ hcalls hlog =>
      rw [hlog]
      rw [hcalls] at hin
      exact List.mem_cons_of_mem _ (h op p (List.mem_of_mem_eraseIdx hin))
  | idle heq =>
      subst heq
      exact h op p hin

end Register

end EncedoChat
