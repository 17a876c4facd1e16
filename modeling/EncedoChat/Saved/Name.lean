import EncedoChat.Invites.Link
import EncedoChat.Lib.PosixPath
import EncedoChat.Lib.Replaced
import Mathlib.Tactic.Tauto

/-!
# A received name made safe

`files.ts`: the name of a file, which its sender chose, as the name of an entry of the download directory.
-/

namespace EncedoChat.Saved

open Units PosixPath

/-- `[\p{Cc}\p{Cf}]`, of a code point. -/
def isControl (p : Units) : Bool := Invites.isInvisible p && !(p = [0x2028] || p = [0x2029])

def FORBIDDEN : Units := ascii "/\\:*?\"<>|"

/-- `[\p{Cc}\p{Cf}\/\\:*?"<>|]` -/
def isReplaced (p : Units) : Bool := isControl p || FORBIDDEN.any fun u => p = [u]

def UNDERSCORE : UInt16 := 0x5F

def safeName (name : Units) : Units :=
  let s := (trim ((replaced isReplaced UNDERSCORE (basename name)).dropWhile (· = DOT))).take 200
  if s = [] then ascii "plik" else s

theorem whole_underscore : Whole UNDERSCORE := ⟨by decide, by decide⟩

theorem whole_dot {u : UInt16} (h : decide (u = DOT) = true) : Whole u := by
  rw [of_decide_eq_true h]
  exact ⟨by decide, by decide⟩

theorem forbidden : FORBIDDEN = [0x2F, 0x5C, 0x3A, 0x2A, 0x3F, 0x22, 0x3C, 0x3E, 0x7C] := by
  simp [FORBIDDEN, ascii]

theorem plik : ascii "plik" = [0x70, 0x6C, 0x69, 0x6B] := by simp [ascii]

theorem isReplaced_unit (u : UInt16) : isReplaced [u] =
    (isControl [u] || [0x2F, 0x5C, 0x3A, 0x2A, 0x3F, 0x22, 0x3C, 0x3E, 0x7C].any fun v : UInt16 => u = v) := by
  simp [isReplaced, forbidden]

theorem replaced_slash : isReplaced [SLASH] = true := by rw [isReplaced_unit]; decide

theorem not_replaced_underscore : isReplaced [UNDERSCORE] = false := by rw [isReplaced_unit]; decide

theorem not_replaced_dot : isReplaced [DOT] = false := by rw [isReplaced_unit]; decide

theorem not_replaced_high {u : UInt16} (h : isHigh u = true) : isReplaced [u] = false := by
  have hn := (isHigh_iff u).mp h
  have hne : ∀ v : UInt16, v.toNat < 0xD800 → u ≠ v := by
    rintro v hv rfl
    omega
  simp [isReplaced_unit, isControl, Invites.isInvisible, h, hne]

/-- The characters that are put into a name. -/
def PLAIN : Units :=
  [0x70, 0x6C, 0x69, 0x6B, 0x20, 0x28, 0x29] ++ (List.range 10).map fun d => UInt16.ofNat (0x30 + d)

theorem plain_unit {u : UInt16} (h : u ∈ PLAIN) : Ascii u ∧ isReplaced [u] = false := by
  have hall : (PLAIN.all fun u => u < 0x80 && !isReplaced [u]) = true := by
    simp only [isReplaced_unit]
    decide +kernel
  simpa [Ascii] using List.all_eq_true.mp hall u h

theorem plain_digit {d : Nat} (h : d < 10) : UInt16.ofNat (0x30 + d) ∈ PLAIN := by
  rw [PLAIN, List.mem_append, List.mem_map]
  exact .inr ⟨d, List.mem_range.mpr h, rfl⟩

theorem free_ascii {s : Units} (h : ∀ u ∈ s, Ascii u ∧ isReplaced [u] = false) : Free isReplaced s := by
  induction s with
  | nil => simp [Free, points]
  | cons u s ih =>
      obtain ⟨hu, hs⟩ := List.forall_mem_cons.mp h
      rw [Free, points_cons hu.1.not_high]
      exact List.forall_mem_cons.mpr ⟨hu.2, ih hs⟩

/-! ## What is kept of a base name -/

/-- A code point that is not replaced, and has such a unit. -/
def unreplaced (q : UInt16 → Bool) (p : Units) : Bool := !isReplaced p && p.any q

/-- The code points of a base name, less its leading dots and then the blanks around it. -/
def kept (b : Units) : List Units :=
  (((points b).dropWhile (unreplaced (· = DOT))).dropWhile (unreplaced isSpace)).rdropWhile (unreplaced isSpace)

def cleaned (b : Units) : Units := trim ((replaced isReplaced UNDERSCORE b).dropWhile (· = DOT))

theorem points_cleaned (b : Units) : points (cleaned b) = (kept b).map (marked isReplaced UNDERSCORE) := by
  have hdot : (fun p => List.any p fun u => decide (u = DOT)) ∘ marked isReplaced UNDERSCORE = unreplaced (· = DOT) :=
    any_marked (by decide)
  have hspace : (fun p => List.any p isSpace) ∘ marked isReplaced UNDERSCORE = unreplaced isSpace :=
    any_marked (by decide)
  rw [cleaned, points_trim, points_dropWhile fun _ => whole_dot, points_replaced whole_underscore, List.dropWhile_map,
    List.dropWhile_map, rdropWhile_map, hdot, hspace, kept]

theorem cleaned_nil_iff (b : Units) : cleaned b = [] ↔ kept b = [] := by
  rw [← List.map_eq_nil_iff (f := marked isReplaced UNDERSCORE), ← points_cleaned]
  constructor
  · rintro h
    rw [h]
    rfl
  · intro h
    rw [← flatten_points (cleaned b), h]
    rfl

theorem safeName_of_kept {name : Units} (h : kept (basename name) ≠ []) :
    safeName name = (cleaned (basename name)).take 200 ∧ safeName name ≠ [] := by
  have hne : (cleaned (basename name)).take 200 ≠ [] := by
    rw [ne_eq, List.take_eq_nil_iff, cleaned_nil_iff]
    simp [h]
  have heq : safeName name = (cleaned (basename name)).take 200 := if_neg hne
  exact ⟨heq, heq ▸ hne⟩

theorem safeName_of_nil {name : Units} (h : kept (basename name) = []) : safeName name = ascii "plik" := by
  refine if_pos ?_
  rw [show trim _ = cleaned (basename name) from rfl, (cleaned_nil_iff _).mpr h]
  rfl

theorem safeName_ne_nil (name : Units) : safeName name ≠ [] := by
  by_cases h : kept (basename name) = []
  · simp [safeName_of_nil h, plik]
  · exact (safeName_of_kept h).2

theorem free_safeName (name : Units) : Free isReplaced (safeName name) := by
  by_cases h : kept (basename name) = []
  · rw [safeName_of_nil h, plik]
    refine free_ascii fun u hu => plain_unit ?_
    simp only [PLAIN, List.mem_append, List.mem_cons, List.not_mem_nil, or_false] at hu ⊢
    tauto
  · rw [(safeName_of_kept h).1]
    refine Free.take (fun u => not_replaced_high) (fun p hp => ?_) 200
    rw [points_cleaned] at hp
    obtain ⟨x, -, rfl⟩ := List.mem_map.mp hp
    exact bad_marked not_replaced_underscore x

/-- The bytes of the safe name, counted in the name that was sent. -/
def bytes (b : Units) : Nat :=
  if kept b = [] then 4 else stored 200 ((kept b).map (marked isReplaced UNDERSCORE))

theorem length_safeName (name : Units) : (utf8 (safeName name)).length = bytes (basename name) := by
  rw [bytes]
  split
  · rename_i h
    rw [safeName_of_nil h, plik]
    decide
  · rename_i h
    rw [(safeName_of_kept h).1, length_utf8_take, points_cleaned]

/-! ## A dot in front -/

/-- After its leading dots the base name has blanks, and then a dot. -/
def HidesDot (b : Units) : Prop :=
  ∃ dots blanks rest, b = dots ++ (blanks ++ DOT :: rest) ∧ (∀ u ∈ dots, u = DOT) ∧ blanks ≠ [] ∧
    ∀ u ∈ blanks, isSpace u = true ∧ isReplaced [u] = false

theorem head_trim (s : Units) : (trim s).head? = some DOT ↔ (s.dropWhile isSpace).head? = some DOT := by
  have hpre : trim s <+: s.dropWhile isSpace := List.rdropWhile_prefix isSpace _
  obtain ⟨t, ht⟩ := hpre
  constructor
  · intro h
    rw [← ht, List.head?_append, h]
    rfl
  · intro h
    cases hs : trim s with
    | nil =>
        have hall := List.rdropWhile_eq_nil_iff.mp hs DOT (List.mem_of_head? h)
        exact absurd hall (by decide)
    | cons u us =>
        rw [← ht, hs] at h
        exact h

theorem head_dropped (c : Units) : ((c.dropWhile (· = DOT)).dropWhile isSpace).head? = some DOT ↔
    ∃ dots blanks t, c = dots ++ (blanks ++ DOT :: t) ∧ (∀ u ∈ dots, u = DOT) ∧ blanks ≠ [] ∧
      ∀ u ∈ blanks, isSpace u = true := by
  constructor
  · intro h
    cases hd : (c.dropWhile (· = DOT)).dropWhile isSpace with
    | nil => simp [hd] at h
    | cons u t =>
        rw [hd, List.head?_cons, Option.some.injEq] at h
        refine ⟨c.takeWhile (· = DOT), (c.dropWhile (· = DOT)).takeWhile isSpace, t, ?_, ?_, ?_, ?_⟩
        · rw [show DOT :: t = u :: t by rw [h], ← hd, List.takeWhile_append_dropWhile, List.takeWhile_append_dropWhile]
        · intro v hv
          simpa using List.mem_takeWhile_imp hv
        · intro hnil
          -- no blank there: what is left begins with no dot
          have hsame := List.takeWhile_append_dropWhile (p := isSpace) (l := c.dropWhile (· = DOT))
          rw [hnil, List.nil_append, hd, h] at hsame
          have hne : c.dropWhile (· = DOT) ≠ [] := by simp [← hsame]
          have hhead := List.head_dropWhile_not (· = DOT) hne
          simp [← hsame] at hhead
        · exact fun v hv => List.mem_takeWhile_imp hv
  · rintro ⟨dots, blanks, t, rfl, hdots, hne, hblanks⟩
    rw [List.dropWhile_append_of_pos (by simpa using hdots)]
    have hstop : (blanks ++ DOT :: t).dropWhile (· = DOT) = blanks ++ DOT :: t := by
      cases blanks with
      | nil => exact absurd rfl hne
      | cons u us =>
          rw [List.cons_append, List.dropWhile_cons_of_neg]
          intro hu
          have hspace := hblanks u List.mem_cons_self
          rw [of_decide_eq_true hu] at hspace
          exact absurd hspace (by decide)
    rw [hstop, List.dropWhile_append_of_pos hblanks, List.dropWhile_cons_of_neg (by decide)]
    rfl

theorem head_cleaned (b : Units) : (cleaned b).head? = some DOT ↔ HidesDot b := by
  have hplain : ∀ {dots blanks : Units}, (∀ u ∈ dots, u = DOT) → (∀ u ∈ blanks, isSpace u = true) →
      ∀ u ∈ dots ++ (blanks ++ [DOT]), Whole u ∧ u ≠ UNDERSCORE := by
    intro dots blanks hdots hblanks u hu
    have hdot : Whole DOT ∧ DOT ≠ UNDERSCORE := ⟨⟨by decide, by decide⟩, by decide⟩
    rcases List.mem_append.mp hu with hu | hu
    · exact hdots u hu ▸ hdot
    · rcases List.mem_append.mp hu with hu | hu
      · refine ⟨whole_space (hblanks u hu), ?_⟩
        rintro rfl
        exact absurd (hblanks UNDERSCORE hu) (by decide)
      · exact List.mem_singleton.mp hu ▸ hdot
  have happend : ∀ dots blanks t : Units, dots ++ (blanks ++ DOT :: t) = (dots ++ (blanks ++ [DOT])) ++ t := by simp
  rw [cleaned, head_trim, head_dropped]
  constructor
  · rintro ⟨dots, blanks, t, hc, hdots, hne, hblanks⟩
    rw [happend, replaced_eq_append (hplain hdots hblanks)] at hc
    obtain ⟨rest, rfl, hgood, -⟩ := hc
    exact ⟨dots, blanks, rest, (happend dots blanks rest).symm, hdots, hne, fun u hu =>
      ⟨hblanks u hu, hgood u (List.mem_append_right _ (List.mem_append_left _ hu))⟩⟩
  · rintro ⟨dots, blanks, rest, rfl, hdots, hne, hblanks⟩
    have hspaces : ∀ u ∈ blanks, isSpace u = true := fun u hu => (hblanks u hu).1
    refine ⟨dots, blanks, replaced isReplaced UNDERSCORE rest, ?_, hdots, hne, hspaces⟩
    rw [happend dots blanks rest, happend dots blanks (replaced _ _ _), replaced_eq_append (hplain hdots hspaces)]
    refine ⟨rest, rfl, fun u hu => ?_, rfl⟩
    rcases List.mem_append.mp hu with hu | hu
    · rw [hdots u hu]
      exact not_replaced_dot
    · rcases List.mem_append.mp hu with hu | hu
      · exact (hblanks u hu).2
      · rw [List.mem_singleton.mp hu]
        exact not_replaced_dot

theorem head_safeName (name : Units) : (safeName name).head? = some DOT ↔ HidesDot (basename name) := by
  rw [← head_cleaned]
  by_cases h : kept (basename name) = []
  · rw [safeName_of_nil h, plik, (cleaned_nil_iff _).mpr h]
    decide
  · rw [(safeName_of_kept h).1, List.head?_take, if_neg (by decide)]

end EncedoChat.Saved
