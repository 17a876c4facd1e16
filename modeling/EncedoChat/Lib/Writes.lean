import Mathlib.Data.List.Nodup
import Mathlib.Logic.Function.Basic

/-!
# Cells written one after another

A board is a function of its cells. What is written last to a cell is what it holds; cells written once each are read
back in the order they were written in.
-/

namespace EncedoChat

variable {κ ν : Type} [DecidableEq κ]

def writeAll (f : κ → ν) (ws : List (κ × ν)) : κ → ν := ws.foldl (fun f w => Function.update f w.1 w.2) f

variable {f : κ → ν} {ws : List (κ × ν)} {k : κ} {v : ν}

theorem writeAll_of_notMem (h : k ∉ ws.map Prod.fst) : writeAll f ws k = f k := by
  induction ws generalizing f with
  | nil => rfl
  | cons w ws ih =>
      rw [List.map_cons, List.mem_cons, not_or] at h
      rw [writeAll, List.foldl_cons]
      exact (ih h.2).trans (Function.update_of_ne h.1 ..)

theorem writeAll_of_mem (hnd : (ws.map Prod.fst).Nodup) (h : (k, v) ∈ ws) : writeAll f ws k = v := by
  induction ws generalizing f with
  | nil => cases h
  | cons w ws ih =>
      rw [List.map_cons, List.nodup_cons] at hnd
      rw [writeAll, List.foldl_cons]
      rcases List.mem_cons.mp h with rfl | h
      · exact (writeAll_of_notMem hnd.1).trans (Function.update_self ..)
      · exact ih hnd.2 h

/-- What was written is read back. -/
theorem map_writeAll (f : κ → ν) (hnd : (ws.map Prod.fst).Nodup) :
    (ws.map Prod.fst).map (writeAll f ws) = ws.map Prod.snd := by
  rw [List.map_map]
  exact List.map_congr_left fun w hw => writeAll_of_mem hnd hw

end EncedoChat
