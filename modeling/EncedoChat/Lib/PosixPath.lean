import EncedoChat.Lib.Utf16
import Mathlib.Data.List.DropRight

/-!
# POSIX paths

`basename`, `extname`, `normalize` and `join` of `node:path`, over the units of a string.
-/

namespace EncedoChat.PosixPath

def SLASH : UInt16 := 0x2F

def DOT : UInt16 := 0x2E

def isAbsolute (p : Units) : Bool := p.head? = some SLASH

/-- The path with one component more: `.` stays where it is, `..` goes back. -/
def push (absolute : Bool) (cs : List Units) (c : Units) : List Units :=
  if c = [] ∨ c = [DOT] then cs
  else if c = [DOT, DOT] then
    match cs.getLast? with
    | none => if absolute then [] else [c]
    | some l => if l = [DOT, DOT] then cs ++ [c] else cs.dropLast
  else cs ++ [c]

/-- What is left of the components of a path once `.` and `..` are followed. -/
def components (p : Units) : List Units := (p.splitOn SLASH).foldl (push (isAbsolute p)) []

def normalize (p : Units) : Units :=
  let trailing := if p.getLast? = some SLASH then [SLASH] else []
  if components p = [] then (if isAbsolute p then [SLASH] else DOT :: trailing)
  else (if isAbsolute p then [SLASH] else []) ++ ([SLASH].intercalate (components p) ++ trailing)

def join (dir name : Units) : Units := normalize ([SLASH].intercalate ([dir, name].filter (· ≠ [])))

def basename (p : Units) : Units := (p.rdropWhile (· = SLASH)).rtakeWhile (· ≠ SLASH)

/-- From the last dot of the base name on, unless that is its first character. -/
def extname (p : Units) : Units :=
  let b := basename p
  if (b.rdropWhile (· ≠ DOT)).length ≤ 1 ∨ b = [DOT, DOT] then [] else DOT :: b.rtakeWhile (· ≠ DOT)

/-! ## Names -/

/-- What names an entry of a directory. -/
structure IsName (f : Units) : Prop where
  nonempty : f ≠ []
  not_dot : f ≠ [DOT]
  not_up : f ≠ [DOT, DOT]
  flat : SLASH ∉ f

theorem IsName.push {f : Units} (h : IsName f) (absolute : Bool) (cs : List Units) : push absolute cs f = cs ++ [f] := by
  rw [PosixPath.push, if_neg (by simp [h.nonempty, h.not_dot]), if_neg h.not_up]

theorem push_nil (absolute : Bool) (cs : List Units) : push absolute cs [] = cs := by simp [push]

theorem push_dot (absolute : Bool) (cs : List Units) : push absolute cs [DOT] = cs := by simp [push]

theorem flat_basename (p : Units) : SLASH ∉ basename p := by
  intro h
  simpa using List.mem_rtakeWhile_imp h

theorem basename_flat {p : Units} (h : SLASH ∉ p) : basename p = p := by
  have hdrop : p.rdropWhile (· = SLASH) = p := by
    rw [List.rdropWhile_eq_self_iff]
    intro hne hlast
    rw [decide_eq_true_eq] at hlast
    exact h (hlast ▸ List.getLast_mem hne)
  rw [basename, hdrop, List.rtakeWhile_eq_self_iff]
  intro u hu
  simpa using fun heq : u = SLASH => h (heq ▸ hu)

/-! ## Components -/

/-- Before a last component: nothing, or what ends in a slash. -/
def Open (s : Units) : Prop := s = [] ∨ ∃ t, s = t ++ [SLASH]

theorem isAbsolute_append {s : Units} (h : s ≠ []) (f : Units) : isAbsolute (s ++ f) = isAbsolute s := by
  cases s with
  | nil => exact absurd rfl h
  | cons u s => rfl

theorem components_append {s f : Units} (hs : Open s) (hf : SLASH ∉ f) :
    components (s ++ f) = push (isAbsolute s) (components s) f := by
  have hone : f.splitOn SLASH = [f] := List.splitOn_eq_singleton hf
  rcases hs with rfl | ⟨t, rfl⟩
  · have habs : isAbsolute f = false := by
      rw [isAbsolute, decide_eq_false_iff_not]
      exact fun h => hf (List.mem_of_head? h)
    rw [List.nil_append, components, hone, habs]
    simp [components, push_nil, isAbsolute]
  · rw [components, isAbsolute_append (by simp), List.append_assoc, List.singleton_append,
      List.splitOn_append_cons_self, hone, List.foldl_append, components, List.splitOn_append_cons_self,
      List.foldl_append]
    simp [push_nil]

/-- Components that are followed are followed already, as are the first ones of them. -/
structure Normal (absolute : Bool) (cs : List Units) : Prop where
  flat : ∀ c ∈ cs, SLASH ∉ c
  steady : ∀ a, a <+: cs → a.foldl (push absolute) [] = a

theorem Normal.nil (absolute : Bool) : Normal absolute [] := ⟨by simp, fun a ha => by simp [List.prefix_nil.mp ha]⟩

theorem Normal.push {absolute : Bool} {cs : List Units} (h : Normal absolute cs) {c : Units} (hc : SLASH ∉ c) :
    Normal absolute (push absolute cs c) := by
  have hfold : PosixPath.push absolute cs c = cs ++ [c] → Normal absolute (cs ++ [c]) := by
    intro heq
    refine ⟨fun x hx => ?_, fun a ha => ?_⟩
    · rcases List.mem_append.mp hx with hx | hx
      · exact h.flat x hx
      · rwa [List.mem_singleton.mp hx]
    · rcases List.prefix_concat_iff.mp ha with rfl | ha
      · rw [List.foldl_append, h.steady cs (List.prefix_refl cs)]
        exact heq
      · exact h.steady a ha
  have hback : Normal absolute cs.dropLast :=
    ⟨fun x hx => h.flat x (List.dropLast_subset cs hx), fun a ha => h.steady a (ha.trans (List.dropLast_prefix cs))⟩
  by_cases hstay : c = [] ∨ c = [DOT]
  · rwa [PosixPath.push, if_pos hstay]
  · by_cases hup : c = [DOT, DOT]
    · cases hl : cs.getLast? with
      | none =>
          obtain rfl := List.getLast?_eq_none_iff.mp hl
          cases absolute with
          | true => simpa [PosixPath.push, hstay, hup] using h
          | false => simpa [PosixPath.push, hup] using hfold (by simp [PosixPath.push, hup])
      | some l =>
          by_cases hlup : l = [DOT, DOT]
          · have heq : PosixPath.push absolute cs c = cs ++ [c] := by
              rw [PosixPath.push, if_neg hstay, if_pos hup, hl]
              simp [hlup]
            rw [heq]
            exact hfold heq
          · have heq : PosixPath.push absolute cs c = cs.dropLast := by
              rw [PosixPath.push, if_neg hstay, if_pos hup, hl]
              simp [hlup]
            rwa [heq]
    · have heq : PosixPath.push absolute cs c = cs ++ [c] := by rw [PosixPath.push, if_neg hstay, if_neg hup]
      rw [heq]
      exact hfold heq

theorem flat_splitOn (p : Units) : ∀ c ∈ p.splitOn SLASH, SLASH ∉ c := by
  induction p with
  | nil => simp
  | cons u p ih =>
      rw [List.splitOn_cons_eq_if_modifyHead]
      split
      · simpa using ih
      · rename_i hu
        cases hl : p.splitOn SLASH with
        | nil => exact absurd hl (List.splitOn_ne_nil SLASH p)
        | cons c cs =>
            rw [hl] at ih
            intro x hx
            rcases List.mem_cons.mp hx with rfl | hx
            · simpa using ⟨fun heq => hu (by simp [heq]), ih c List.mem_cons_self⟩
            · exact ih x (List.mem_cons_of_mem c hx)

theorem normal_components (p : Units) : Normal (isAbsolute p) (components p) := by
  have h : ∀ (l : List Units) (acc : List Units), (∀ c ∈ l, SLASH ∉ c) → Normal (isAbsolute p) acc →
      Normal (isAbsolute p) (l.foldl (push (isAbsolute p)) acc) := by
    intro l
    induction l with
    | nil => exact fun _ _ h => h
    | cons c l ih =>
        intro acc hl hacc
        exact ih _ (fun x hx => hl x (List.mem_cons_of_mem c hx)) (hacc.push (hl c List.mem_cons_self))
  exact h _ _ (flat_splitOn p) (Normal.nil _)

/-! ## Normalising -/

theorem intercalate_concat (cs : List Units) (f : Units) :
    [SLASH].intercalate (cs ++ [f]) = (cs.flatMap fun c => c ++ [SLASH]) ++ f := by
  induction cs with
  | nil => simp
  | cons c cs ih => rw [List.cons_append, List.intercalate_cons_of_ne_nil (by simp), ih]; simp

theorem Normal.head_ne {absolute : Bool} {c : Units} {cs : List Units} (h : Normal absolute (c :: cs)) : c ≠ [] := by
  rintro rfl
  have hone := h.steady [[]] (by simp)
  rw [List.foldl_cons, push_nil] at hone
  simp at hone

theorem fold_slash (absolute leads trails : Bool) (body : Units) :
    (((if leads then [SLASH] else []) ++ (body ++ if trails then [SLASH] else [])).splitOn SLASH).foldl
        (push absolute) [] = (body.splitOn SLASH).foldl (push absolute) [] := by
  have hend : ((body ++ if trails then [SLASH] else []).splitOn SLASH).foldl (push absolute) [] =
      (body.splitOn SLASH).foldl (push absolute) [] := by
    cases trails with
    | false => simp
    | true =>
        rw [if_pos rfl, List.splitOn_append_cons_self, List.foldl_append]
        simp [push_nil]
  cases leads with
  | false => simpa using hend
  | true =>
      have hfront := List.splitOn_append_cons_self (a := SLASH) [] (body ++ if trails then [SLASH] else [])
      rw [List.nil_append] at hfront
      rw [if_pos rfl, List.singleton_append, hfront, List.foldl_append]
      simpa [push_nil] using hend

theorem isAbsolute_body {p : Units} (h : components p ≠ []) (t : Units) :
    isAbsolute ((if isAbsolute p then [SLASH] else []) ++ ([SLASH].intercalate (components p) ++ t)) = isAbsolute p := by
  cases habs : isAbsolute p with
  | true => rfl
  | false =>
      have hnormal := normal_components p
      cases hcs : components p with
      | nil => exact absurd hcs h
      | cons c cs =>
          rw [hcs] at hnormal
          cases hc : c with
          | nil => exact absurd hc hnormal.head_ne
          | cons u us =>
              have hu : u ≠ SLASH := by
                rintro rfl
                exact hnormal.flat c List.mem_cons_self (hc ▸ List.mem_cons_self)
              cases cs <;> simp [isAbsolute, hu, List.intercalate_cons_of_ne_nil]

theorem normalize_parts (p : Units) :
    components (normalize p) = components p ∧ isAbsolute (normalize p) = isAbsolute p := by
  by_cases hcs : components p = []
  · have hstay : components [SLASH] = [] ∧ components [DOT] = [] ∧ components [DOT, SLASH] = [] := by decide
    rw [normalize, if_pos hcs, hcs]
    cases isAbsolute p with
    | true => exact ⟨hstay.1, rfl⟩
    | false =>
        by_cases ht : p.getLast? = some SLASH
        · rw [if_pos ht]
          exact ⟨hstay.2.2, rfl⟩
        · rw [if_neg ht]
          exact ⟨hstay.2.1, rfl⟩
  · have habs := isAbsolute_body hcs (if p.getLast? = some SLASH then [SLASH] else [])
    have hnormal := normal_components p
    have hfold := fold_slash (isAbsolute p) (isAbsolute p) (p.getLast? = some SLASH) ([SLASH].intercalate (components p))
    rw [List.splitOn_intercalate SLASH hnormal.flat hcs, hnormal.steady _ (List.prefix_refl _)] at hfold
    simp only [decide_eq_true_eq] at hfold
    rw [normalize, if_neg hcs]
    exact ⟨by rw [components, habs]; exact hfold, habs⟩

/-! ## An entry of a directory -/

/-- The directory, as `join` has it before a name. -/
def lead (s : Units) : Units := (if isAbsolute s then [SLASH] else []) ++ (components s).flatMap fun c => c ++ [SLASH]

theorem normalize_append {s f : Units} (hs : Open s) (hf : IsName f) : normalize (s ++ f) = lead s ++ f := by
  have hcs : components (s ++ f) = components s ++ [f] := by rw [components_append hs hf.flat, hf.push]
  have habs : isAbsolute (s ++ f) = isAbsolute s := by
    rcases hs with rfl | ⟨t, rfl⟩
    · rw [List.nil_append, isAbsolute, decide_eq_false fun h => hf.flat (List.mem_of_head? h)]
      rfl
    · exact isAbsolute_append (by simp) f
  have hlast : (s ++ f).getLast? ≠ some SLASH := by
    rw [List.getLast?_append_of_ne_nil s hf.nonempty]
    exact fun h => hf.flat (List.mem_of_getLast? h)
  rw [normalize, if_neg (by simp [hcs]), habs, hcs, if_neg hlast, List.append_nil, intercalate_concat, lead,
    List.append_assoc]

/-- The directory before what is joined to it. -/
def slashed (dir : Units) : Units := if dir = [] then [] else dir ++ [SLASH]

theorem open_slashed (dir : Units) : Open (slashed dir) := by
  rw [slashed]
  split
  · exact .inl rfl
  · exact .inr ⟨dir, rfl⟩

theorem Open.append {s t : Units} (hs : Open s) (ht : Open t) : Open (s ++ t) := by
  rcases ht with rfl | ⟨t, rfl⟩
  · rwa [List.append_nil]
  · exact .inr ⟨s ++ t, by rw [List.append_assoc]⟩

theorem slashed_parts (dir : Units) :
    components (slashed dir) = components dir ∧ isAbsolute (slashed dir) = isAbsolute dir := by
  rw [slashed]
  split
  · rename_i h
    rw [h]
    exact ⟨rfl, rfl⟩
  · rename_i h
    refine ⟨?_, isAbsolute_append h _⟩
    rw [components, isAbsolute_append h, List.splitOn_append_cons_self, List.foldl_append]
    simp [components, push_nil]

theorem join_eq (dir : Units) {name : Units} (h : name ≠ []) : join dir name = normalize (slashed dir ++ name) := by
  rw [join, slashed]
  by_cases hd : dir = []
  · simp [hd, h]
  · simp [hd, h, List.intercalate_cons_of_ne_nil]

theorem join_append (dir : Units) {a f : Units} (ha : Open a) (hf : IsName f) :
    join dir (a ++ f) = lead (slashed dir ++ a) ++ f := by
  rw [join_eq dir (by simp [hf.nonempty]), ← List.append_assoc]
  exact normalize_append ((open_slashed dir).append ha) hf

/-- The path is that of the entry `f` of the directory. -/
structure Inside (dir path f : Units) : Prop where
  components : components path = components dir ++ [f]
  absolute : isAbsolute path = isAbsolute dir

theorem components_join (dir : Units) {c : Units} (hne : c ≠ []) (hflat : SLASH ∉ c) :
    components (join dir c) = push (isAbsolute dir) (components dir) c := by
  rw [join_eq dir hne, (normalize_parts _).1, components_append (open_slashed dir) hflat, (slashed_parts dir).1,
    (slashed_parts dir).2]

theorem Inside.join (dir : Units) {f : Units} (hf : IsName f) : Inside dir (join dir f) f where
  components := by rw [components_join dir hf.nonempty hf.flat, hf.push]
  absolute := by
    rw [join_eq dir hf.nonempty, (normalize_parts _).2]
    rcases open_slashed dir with hs | ⟨t, ht⟩
    · rw [hs, List.nil_append, ← (slashed_parts dir).2, hs, isAbsolute, decide_eq_false fun h => hf.flat (List.mem_of_head? h)]
      rfl
    · rw [isAbsolute_append (by simp [ht]), (slashed_parts dir).2]

/-- What is joined is a name, or the path is that of none but `..`. -/
theorem Inside.of_join {dir c f : Units} (hne : c ≠ []) (hflat : SLASH ∉ c) (h : Inside dir (PosixPath.join dir c) f) :
    f = c := by
  have hcs := h.components
  rw [components_join dir hne hflat] at hcs
  have hnot : ∀ {l : List Units}, l.length ≤ (PosixPath.components dir).length → l ≠ PosixPath.components dir ++ [f] := by
    rintro l hl rfl
    simp at hl
  by_cases hdot : c = [DOT]
  · rw [hdot, push_dot] at hcs
    exact absurd hcs (hnot le_rfl)
  · by_cases hup : c = [DOT, DOT]
    · rw [hup, push, if_neg (by decide), if_pos rfl] at hcs
      cases hl : (PosixPath.components dir).getLast? with
      | none =>
          rw [hl] at hcs
          obtain hnil := List.getLast?_eq_none_iff.mp hl
          cases habs : isAbsolute dir with
          | true => simp [habs] at hcs
          | false => simpa [habs, hnil, hup, eq_comm] using hcs
      | some l =>
          rw [hl] at hcs
          simp only at hcs
          split at hcs
          · simpa [hup, eq_comm] using hcs
          · exact absurd hcs (hnot (by simp))
    · have hname : IsName c := ⟨hne, hdot, hup, hflat⟩
      rw [hname.push] at hcs
      simpa [eq_comm] using hcs

end EncedoChat.PosixPath
