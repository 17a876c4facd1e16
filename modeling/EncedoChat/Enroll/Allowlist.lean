import EncedoChat.Enroll.PeerId
import EncedoChat.Lib.Text

/-!
# The list

`parseAllowlist` of `allowlist.mjs`, which the relay reads the list with, and `addToList` of `enroll.mjs`, which writes to it.
-/

namespace EncedoChat.Enroll

/-- What `.` does not match. -/
def isLineEnd (c : Char) : Bool := c.toNat = 10 || c.toNat = 13 || c.toNat = 0x2028 || c.toNat = 0x2029

/-- `raw.replace(/#.*/, '')` -/
def stripComment (raw : List Char) : List Char :=
  raw.takeWhile (· ≠ '#') ++ (raw.dropWhile (· ≠ '#')).dropWhile (fun c => !isLineEnd c)

/-- The first word of a line, if there is one. -/
def firstWord (raw : List Char) : Option String :=
  let line := Text.trimList Text.isSpace (stripComment raw)
  if line.isEmpty then none else some (String.ofList (line.takeWhile (fun c => !Text.isSpace c)))

/-- `ids` is a set in order of insertion. -/
structure Allowlist where
  ids : List String
  bad : List Nat
  deriving DecidableEq

namespace Allowlist

def empty : Allowlist := ⟨[], []⟩

/-- One line, by its index. -/
def line (a : Allowlist) (i : Nat) (raw : List Char) : Allowlist :=
  match firstWord raw with
  | none => a
  | some id =>
    if isPeerId id then { a with ids := if id ∈ a.ids then a.ids else a.ids ++ [id] }
    else { a with bad := a.bad ++ [i + 1] }

def lines (a : Allowlist) : Nat → List (List Char) → Allowlist
  | _, [] => a
  | i, raw :: rest => (a.line i raw).lines (i + 1) rest

@[simp] theorem line_nil (a : Allowlist) (i : Nat) : a.line i [] = a := rfl

theorem lines_append (a : Allowlist) (i : Nat) (xs ys : List (List Char)) :
    a.lines i (xs ++ ys) = (a.lines i xs).lines (i + xs.length) ys := by
  induction xs generalizing a i with
  | nil => rfl
  | cons x xs ih =>
      rw [List.cons_append, lines, lines, ih, List.length_cons]
      congr 1
      omega

end Allowlist

def parseAllowlist (text : String) : Allowlist := Allowlist.empty.lines 0 (text.toList.splitOn '\n')

/-- What the platform answers: `\p{L}` or `\p{N}`, and `toISOString` of a time. -/
structure Writing where
  word : Char → Bool
  iso : Nat → String
  word_newline : word '\n' = false
  iso_newline : ∀ t, '\n' ∉ (iso t).toList

namespace Writing

variable (W : Writing)

/-- What is kept of a label. -/
def keeps (c : Char) : Bool := W.word c || c ∈ " ._,()@+:-".toList

/-- `s.slice(0, n)` as it is written out: half a character becomes U+FFFD. -/
def slice (n : Nat) (s : String) : String :=
  let kept := Text.take n s
  if Text.length kept < n ∧ kept ≠ s then kept ++ "\uFFFD" else kept

def clean (label : String) : String := slice 100 (String.ofList (label.toList.filter W.keeps))

/-- The line of a device, without its end. -/
def entry (peerId label : String) (t : Nat) : String :=
  let clean := W.clean label
  peerId ++ " " ++ (if clean = "" then "" else clean ++ " ") ++ "# enrolled " ++ W.iso t

end Writing

/-- The devices on the list; a file that cannot be read has none. -/
def listed (file : Option String) : List String :=
  match file with
  | none => []
  | some text => (parseAllowlist text).ids

def addToList (W : Writing) (file : Option String) (peerId label : String) (t : Nat) : Option String :=
  if peerId ∈ listed file then file
  else
    let text := file.getD ""
    some ((if text ≠ "" ∧ !Text.endsWith text "\n" then text ++ "\n" else text) ++ W.entry peerId label t ++ "\n")

/-! ## What is written is read -/

section
variable {W : Writing}

theorem mem_take_go {c : Char} {n : Nat} {cs : List Char} (h : c ∈ Text.take.go n cs) : c ∈ cs := by
  induction cs generalizing n with
  | nil => simp [Text.take.go] at h
  | cons d cs ih =>
      rw [Text.take.go] at h
      split at h
      · rcases List.mem_cons.mp h with rfl | h
        · simp
        · exact List.mem_cons_of_mem _ (ih h)
      · simp at h

theorem mem_slice {c : Char} {n : Nat} {s : String} (h : c ∈ (Writing.slice n s).toList) : c ∈ s.toList ∨ c = '\uFFFD' := by
  rw [Writing.slice] at h
  split at h
  · rw [String.toList_append, List.mem_append] at h
    rcases h with h | h
    · rw [Text.take, String.toList_ofList] at h
      exact .inl (mem_take_go h)
    · exact .inr (by simpa using h)
  · rw [Text.take, String.toList_ofList] at h
    exact .inl (mem_take_go h)

theorem clean_newline (W : Writing) (label : String) : '\n' ∉ (W.clean label).toList := by
  intro h
  rcases mem_slice h with h | h
  · rw [String.toList_ofList, List.mem_filter, Writing.keeps, W.word_newline] at h
    simp at h
  · simp at h

theorem isB58_range {c : Char} (h : isB58 c = true) : 49 ≤ c.toNat ∧ c.toNat ≤ 122 := by
  simp only [isB58, Text.between, Bool.or_eq_true, Bool.and_eq_true, decide_eq_true_eq, Char.reduceToNat] at h
  omega

/-- A character of a PeerId ends neither a word nor a line and starts no comment. -/
theorem isB58_plain {c : Char} (h : isB58 c = true) : c ≠ '\n' ∧ c ≠ '#' ∧ Text.isSpace c = false := by
  have hn := isB58_range h
  refine ⟨?_, ?_, ?_⟩
  · rintro rfl
    exact absurd hn (by decide)
  · rintro rfl
    exact absurd hn (by decide)
  · simp only [Text.isSpace, Bool.or_eq_false_iff, Bool.and_eq_false_iff, decide_eq_false_iff_not]
    omega

theorem isB58_head : ∀ c ∈ PEER_ID_HEAD, isB58 c = true := by
  have hall : PEER_ID_HEAD.all isB58 = true := by decide
  exact List.all_eq_true.mp hall

theorem isB58_of_isPeerId {s : String} (h : isPeerId s = true) : ∀ c ∈ s.toList, isB58 c = true := by
  rw [isPeerId, Bool.and_eq_true, Bool.and_eq_true] at h
  obtain ⟨t, ht⟩ := List.isPrefixOf_iff_prefix.mp h.1.1
  have hall := List.all_eq_true.mp h.2
  rw [← ht, List.drop_left' (by decide)] at hall
  intro c hc
  rw [← ht] at hc
  rcases List.mem_append.mp hc with hc | hc
  · exact isB58_head c hc
  · exact hall c hc

theorem ne_nil_of_isPeerId {s : String} (h : isPeerId s = true) : s.toList ≠ [] := by
  rw [isPeerId, Bool.and_eq_true, Bool.and_eq_true] at h
  intro hnil
  rw [hnil] at h
  exact absurd h.1.2 (by decide)

theorem rdropWhile_append {p : Char → Bool} {xs ys : List Char} (h : xs.rdropWhile p = xs) :
    (xs ++ ys).rdropWhile p = xs ++ ys.rdropWhile p := by
  rw [List.rdropWhile] at h ⊢
  rw [List.reverse_append, List.dropWhile_append]
  split
  · rename_i hempty
    rw [h, List.rdropWhile, List.isEmpty_iff.mp hempty]
    simp
  · simp [List.rdropWhile]

/-- A word before a blank is the first word, whatever follows. -/
theorem firstWord_append {w : List Char} (hne : w ≠ []) (hw : ∀ c ∈ w, isB58 c = true) (rest : List Char) :
    firstWord (w ++ ' ' :: rest) = some (String.ofList w) := by
  have hspace : ∀ c ∈ w, Text.isSpace c = false := fun c hc => (isB58_plain (hw c hc)).2.2
  have hstrip : stripComment (w ++ ' ' :: rest) = w ++ ' ' :: stripComment rest := by
    have hnot : ∀ c ∈ w, (decide (c ≠ '#')) = true := fun c hc => by simpa using (isB58_plain (hw c hc)).2.1
    rw [stripComment, List.takeWhile_append_of_pos hnot, List.dropWhile_append_of_pos hnot]
    simp [stripComment]
  have hdrop : (w ++ ' ' :: stripComment rest).dropWhile Text.isSpace = w ++ ' ' :: stripComment rest := by
    cases w with
    | nil => exact absurd rfl hne
    | cons c w => simp [hspace c (by simp)]
  have hlast : w.rdropWhile Text.isSpace = w := by
    rw [List.rdropWhile_eq_self_iff]
    intro h
    simp [hspace _ (List.getLast_mem h)]
  have htrim : Text.trimList Text.isSpace (stripComment (w ++ ' ' :: rest)) =
      w ++ (' ' :: stripComment rest).rdropWhile Text.isSpace := by
    rw [hstrip, Text.trimList, hdrop, rdropWhile_append hlast]
  have hblank : ((' ' :: stripComment rest).rdropWhile Text.isSpace).takeWhile (fun c => !Text.isSpace c) = [] := by
    obtain ⟨t, ht⟩ := List.rdropWhile_prefix Text.isSpace (l := ' ' :: stripComment rest)
    cases hr : (' ' :: stripComment rest).rdropWhile Text.isSpace with
    | nil => rfl
    | cons c cs =>
        rw [hr, List.cons_append, List.cons.injEq] at ht
        rw [ht.1]
        rfl
  rw [firstWord, htrim]
  rw [List.takeWhile_append_of_pos (by simpa using hspace), hblank]
  simp [hne]

theorem entry_toList (W : Writing) (peerId label : String) (t : Nat) :
    ∃ rest, (W.entry peerId label t).toList = peerId.toList ++ ' ' :: rest := by
  simp [Writing.entry]

theorem entry_newline (W : Writing) {peerId : String} (hp : isPeerId peerId = true) (label : String) (t : Nat) :
    '\n' ∉ (W.entry peerId label t).toList := by
  have hplain : '\n' ∉ peerId.toList := fun h => (isB58_plain (isB58_of_isPeerId hp _ h)).1 rfl
  have hclean := clean_newline W label
  have hiso := W.iso_newline t
  rw [Writing.entry]
  split <;> simp_all

/-- The lines of a text, before and after one more. -/
theorem splitOn_appended (text line : List Char) (h : '\n' ∉ line) :
    ∃ before tail, text.splitOn '\n' = before ++ tail ∧ (tail = [] ∨ tail = [[]]) ∧
      ((if text ≠ [] ∧ ¬['\n'] <:+ text then text ++ ['\n'] else text) ++ line ++ ['\n']).splitOn '\n' =
        before ++ [line, []] := by
  have hline : (line ++ ['\n']).splitOn '\n' = [line, []] := by
    rw [List.splitOn_append_cons_self_of_not_mem h]
    rfl
  by_cases hnil : text = []
  · subst hnil
    exact ⟨[], [[]], rfl, .inr rfl, by simpa using hline⟩
  by_cases hend : ['\n'] <:+ text
  · obtain ⟨before, rfl⟩ := hend
    refine ⟨before.splitOn '\n', [[]], List.splitOn_append_cons_self .., .inr rfl, ?_⟩
    rw [if_neg (by simp), List.append_assoc, List.append_assoc, List.singleton_append,
      List.splitOn_append_cons_self, hline]
  · refine ⟨text.splitOn '\n', [], (List.append_nil _).symm, .inl rfl, ?_⟩
    rw [if_pos ⟨hnil, hend⟩, List.append_assoc, List.append_assoc, List.singleton_append,
      List.splitOn_append_cons_self, hline]

theorem firstWord_entry (W : Writing) {peerId : String} (hp : isPeerId peerId = true) (label : String) (t : Nat) :
    firstWord (W.entry peerId label t).toList = some peerId := by
  obtain ⟨rest, hrest⟩ := entry_toList W peerId label t
  rw [hrest, firstWord_append (ne_nil_of_isPeerId hp) (isB58_of_isPeerId hp), String.ofList_toList]

/-- A line more is an entry more; the lines before it stand as they stood. -/
theorem parse_appended (W : Writing) {peerId : String} (hp : isPeerId peerId = true) (text label : String) (t : Nat) :
    parseAllowlist ((if text ≠ "" ∧ !Text.endsWith text "\n" then text ++ "\n" else text) ++ W.entry peerId label t ++ "\n") =
      { parseAllowlist text with
        ids := if peerId ∈ (parseAllowlist text).ids then (parseAllowlist text).ids
          else (parseAllowlist text).ids ++ [peerId] } := by
  obtain ⟨before, tail, hold, htail, hnew⟩ := splitOn_appended text.toList _ (entry_newline W hp label t)
  have hblank : ∀ (a : Allowlist) i, a.lines i tail = a := by
    rcases htail with rfl | rfl
    · exact fun _ _ => rfl
    · exact fun _ _ => rfl
  have htext : ((if text ≠ "" ∧ !Text.endsWith text "\n" then text ++ "\n" else text) ++ W.entry peerId label t ++
      "\n").toList = (if text.toList ≠ [] ∧ ¬['\n'] <:+ text.toList then text.toList ++ ['\n'] else text.toList) ++
        (W.entry peerId label t).toList ++ ['\n'] := by
    have hend : (!Text.endsWith text "\n") = true ↔ ¬['\n'] <:+ text.toList := by
      simp [Text.endsWith, ← List.isSuffixOf_iff_suffix]
    have hnil : text ≠ "" ↔ text.toList ≠ [] := by simp
    simp only [hend, hnil, String.toList_append, apply_ite String.toList]
    rfl
  rw [parseAllowlist, parseAllowlist, htext, hnew, hold, Allowlist.lines_append, Allowlist.lines_append, hblank]
  simp only [Allowlist.lines, Allowlist.line_nil]
  rw [Allowlist.line, firstWord_entry W hp]
  simp [hp]

theorem listed_addToList (W : Writing) {peerId : String} (hp : isPeerId peerId = true) (file : Option String)
    (label : String) (t : Nat) :
    listed (addToList W file peerId label t) =
      if peerId ∈ listed file then listed file else listed file ++ [peerId] := by
  rw [addToList]
  by_cases h : peerId ∈ listed file
  · rw [if_pos h, if_pos h]
  · have hfile : listed file = (parseAllowlist (file.getD "")).ids := by
      cases file <;> rfl
    rw [if_neg h]
    show (parseAllowlist _).ids = _
    rw [parse_appended W hp, hfile]

end

end EncedoChat.Enroll
