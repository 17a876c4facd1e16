import Mathlib.Data.List.Basic

/-!
# A cap over a sliding window

Who counts the hits of the last `span` and refuses one when there are `max`, on a clock that does not go back, has at
most `max` in any `span`, wherever it begins.
-/

namespace EncedoChat.Window

/-- `recent.filter((x) => t - x < span)` -/
def live (span : Int) (recent : List Int) (t : Int) : List Int := recent.filter fun x => t - x < span

/-- The hits of the `span` that begins at `a`. -/
def within (span a : Int) (all : List Int) : Nat := all.countP fun x => a ≤ x ∧ x < a + span

/-- What is kept of all the hits at `now`, and the cap on them. -/
structure Capped (span : Int) (max : Nat) (recent all : List Int) (now : Int) : Prop where
  past : ∀ x ∈ all, x ≤ now
  kept : live span all now = live span recent now
  cap : ∀ a, within span a all ≤ max

variable {span now t : Int} {max : Nat} {recent all : List Int}

theorem live_append (a b : List Int) (t : Int) : live span (a ++ b) t = live span a t ++ live span b t :=
  List.filter_append ..

theorem live_live (l : List Int) (h : now ≤ t) : live span (live span l now) t = live span l t := by
  rw [live, live, live, List.filter_filter]
  refine List.filter_congr fun x _ => ?_
  simp only [Bool.and_eq_left_iff_imp, decide_eq_true_eq]
  omega

namespace Capped

theorem start (now : Int) : Capped span max [] [] now := ⟨by simp, rfl, fun _ => Nat.zero_le _⟩

/-- Time passes. -/
theorem pass (h : Capped span max recent all now) (ht : now ≤ t) : Capped span max recent all t where
  past x hx := Int.le_trans (h.past x hx) ht
  kept := by rw [← live_live all ht, h.kept, live_live recent ht]
  cap := h.cap

/-- What is too old is dropped. -/
theorem drop (h : Capped span max recent all now) (ht : now ≤ t) : Capped span max (live span recent t) all t :=
  { h.pass ht with kept := by rw [(h.pass ht).kept, live_live recent (Int.le_refl t)] }

/-- A hit, where there is room. -/
theorem hit (h : Capped span max recent all now) (ht : now ≤ t) (hroom : (live span recent t).length < max) :
    Capped span max (live span recent t ++ [t]) (all ++ [t]) t where
  past x hx := by
    rcases List.mem_append.mp hx with hx | hx
    · exact Int.le_trans (h.past x hx) ht
    · exact Int.le_of_eq (List.mem_singleton.mp hx)
  kept := by
    rw [live_append, live_append, (h.drop ht).kept]
  cap a := by
    rw [within, List.countP_append]
    by_cases hin : a ≤ t ∧ t < a + span
    · -- what the window holds before the hit is alive at the hit
      have hle : all.countP (fun x => a ≤ x ∧ x < a + span) ≤ (live span all t).length := by
        rw [live, ← List.countP_eq_length_filter]
        refine List.countP_mono_left fun x _ hx => ?_
        simp only [decide_eq_true_eq] at hx ⊢
        omega
      have hone : [t].countP (fun x => a ≤ x ∧ x < a + span) ≤ 1 := List.countP_le_length
      rw [(h.pass ht).kept] at hle
      omega
    · have hnone : [t].countP (fun x => a ≤ x ∧ x < a + span) = 0 := by simp [hin]
      rw [hnone]
      exact h.cap a

end Capped

end EncedoChat.Window
