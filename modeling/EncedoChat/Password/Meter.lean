import EncedoChat.Lib.Utf16
import Mathlib.Data.List.DropRight
import Mathlib.Data.Rat.Defs

/-!
# What a password is worth

`passmeter.ts`: the list of common passwords, what is undone before it is asked, and the estimate. `toLowerCase` and
`Math.round(eff * Math.log2(pool))` are the platform's.
-/

namespace EncedoChat.Password

open Units

inductive Advice where
  | common
  | short
  | oneClass
  | patterns
  | ok
  deriving DecidableEq

structure Strength where
  bits : Int
  score : Fin 4
  advice : Advice

def ENFORCE_MIN : Fin 4 := 3

def COMMON : List Units :=
  ["123456", "123456789", "12345678", "12345", "1234567", "1234567890", "1234",
    "111111", "123123", "000000", "654321", "666666", "121212", "112233",
    "789456", "159753", "123321", "007007",
    "password", "password1", "password123", "haslo", "haslo123", "hasło",
    "qwerty", "qwerty123", "qwertyuiop", "asdfgh", "asdfghjkl", "zxcvbn",
    "zxcvbnm", "asdf1234", "qazwsx", "zaq12wsx", "1qaz2wsx", "1q2w3e4r",
    "1q2w3e", "q1w2e3r4", "abc123", "abcd1234", "a1b2c3",
    "admin", "root", "login", "welcome", "letmein", "secret", "test", "guest",
    "master", "shadow", "dragon", "monkey", "killer", "hunter", "buster",
    "trustno1", "freedom", "whatever", "sunshine", "princess", "flower",
    "iloveyou", "lovely", "hello", "charlie", "jordan", "harley", "pepper",
    "ginger", "tigger", "mustang", "access", "batman", "superman", "starwars",
    "pokemon", "football", "baseball", "soccer", "hockey", "summer", "winter",
    "orange", "purple", "banana", "cheese", "chocolate", "computer", "internet",
    "samsung", "google", "michael", "andrew", "matthew", "daniel", "thomas",
    "jessica", "jennifer", "michelle", "ashley", "nicole", "hannah", "joshua",
    "maggie", "george", "donald", "system",
    "polska", "misiek", "kasia", "basia", "aniela", "michal", "mateusz",
    "marcin", "lukasz", "krzysztof", "agnieszka", "monika", "karolina",
    "bartek", "madzia", "kochanie", "kochana", "slonce", "sloneczko", "motyl",
    "gitara", "komputer", "internetowa", "wiosna", "zima", "lato", "jesien",
    "pilka", "legia", "wisla", "lech"].map ascii

/-- `LEET[c]` -/
def LEET (c : UInt16) : Option UInt16 :=
  match c.toNat with
  | 0x40 | 0x34 => some 0x61
  | 0x33 => some 0x65
  | 0x31 => some 0x6C
  | 0x21 => some 0x69
  | 0x30 => some 0x6F
  | 0x24 | 0x35 => some 0x73
  | 0x37 => some 0x74
  | 0x38 => some 0x62
  | _ => none

def unleet (c : UInt16) : UInt16 := (LEET c).getD c

def isDigit (c : UInt16) : Bool := 0x30 ≤ c && c ≤ 0x39

def isLower (c : UInt16) : Bool := 0x61 ≤ c && c ≤ 0x7A

def isUpper (c : UInt16) : Bool := 0x41 ≤ c && c ≤ 0x5A

/-- What `[\d\W_]` leaves. -/
def isLetter (c : UInt16) : Bool := isLower c || isUpper c

/-- `s.replace(/[\d\W_]+$/, '')` -/
def strip (s : Units) : Units := s.rdropWhile fun c => !isLetter c

def ROWS : List Units := ["qwertyuiop", "asdfghjkl", "zxcvbnm", "1234567890"].map ascii

def rowNeighbours (a b : UInt16) : Bool :=
  ROWS.any fun r => r.contains a && r.contains b && (r.idxOf b = r.idxOf a + 1 || r.idxOf a = r.idxOf b + 1)

/-- The length and the run so far, after a character. -/
structure Walked where
  eff : ℚ
  run : Nat
  last : Option UInt16

def joined (a b : UInt16) : Bool := b = a || b.toNat = a.toNat + 1 || a.toNat = b.toNat + 1 || rowNeighbours a b

def Walked.step (w : Walked) (c : UInt16) : Walked :=
  let run := match w.last with
    | none => w.run
    | some p => if joined p c then w.run + 1 else 1
  ⟨w.eff + if 2 < run then 1 / 4 else 1, run, some c⟩

/-- `effectiveLength`, of the password in lower case. -/
def effectiveLength (low : Units) : ℚ := (low.foldl Walked.step ⟨0, 1, none⟩).eff

/-- `/(19|20)\d\d$/` -/
def endsInYear (pw : Units) : Bool :=
  match pw.drop (pw.length - 4) with
  | [a, b, c, d] => (a = 0x31 && b = 0x39 || a = 0x32 && b = 0x30) && isDigit c && isDigit d
  | _ => false

def poolOf (pw : Units) : Nat :=
  (if pw.any isLower then 26 else 0) + (if pw.any isUpper then 26 else 0) + (if pw.any isDigit then 10 else 0) +
    if pw.any fun c => !(isLetter c || isDigit c) then 33 else 0

def scoreOf (bits : Int) : Fin 4 := if bits < 28 then 0 else if bits < 45 then 1 else if bits < 60 then 2 else 3

/-- What to tell the person of a password that is not on the list. -/
def adviceOf (score : Fin 4) (eff : ℚ) (length pool : Nat) : Advice :=
  if ENFORCE_MIN ≤ score then .ok
  else if eff < (length : ℚ) * (3 / 4) then .patterns
  else if length < 10 then .short
  else if pool = 26 ∨ pool = 10 then .oneClass
  else .short

section
variable (lower : Units → Units) (bitsOf : ℚ → Nat → Int)

/-- Of a password that is not on the list. -/
def estimate (pw : Units) : Strength :=
  let all := effectiveLength (lower pw)
  let eff := if endsInYear pw && 4 < pw.length then max 1 (all - 2) else all
  let pool := poolOf pw
  let bits := bitsOf eff (if pool = 0 then 1 else pool)
  let score := scoreOf bits
  ⟨bits, score, adviceOf score eff pw.length pool⟩

def assessPassword (pw : Units) : Strength :=
  if pw = [] then ⟨0, 0, .short⟩
  else
    let low := lower pw
    let undone := low.map unleet
    let bare := strip low
    let bareUndone := strip undone
    if COMMON.contains low || COMMON.contains undone then ⟨7, 0, .common⟩
    else if (bare ≠ [] && COMMON.contains bare) || (bareUndone ≠ [] && COMMON.contains bareUndone) then
      ⟨min 16 (7 + ((pw.length : Int) - bare.length) * 3), 0, .common⟩
    else estimate lower bitsOf pw

end

/-! ## When the list is met -/

variable {lower : Units → Units} {bitsOf : ℚ → Nat → Int} {pw : Units}

theorem adviceOf_ne_common {score : Fin 4} {eff : ℚ} {length pool : Nat} : adviceOf score eff length pool ≠ .common := by
  rw [adviceOf]
  split_ifs <;> simp

/-- The password in lower case, or with the disguise undone, or without its tail, is on the list. -/
def Listed (low : Units) : Prop :=
  low ∈ COMMON ∨ low.map unleet ∈ COMMON ∨ strip low ∈ COMMON ∨ strip (low.map unleet) ∈ COMMON

theorem nil_not_common : [] ∉ COMMON := by
  simp [COMMON, ascii]

theorem assess_common_iff (hpw : pw ≠ []) :
    (assessPassword lower bitsOf pw).score = 0 ∧ (assessPassword lower bitsOf pw).advice = .common ↔ Listed (lower pw) := by
  have hne : ∀ s : Units, s ≠ [] ∧ s ∈ COMMON ↔ s ∈ COMMON :=
    fun s => and_iff_right_of_imp fun hs hnil => nil_not_common (hnil ▸ hs)
  simp only [assessPassword, if_neg hpw, Bool.or_eq_true, Bool.and_eq_true, decide_eq_true_eq, List.contains_iff_mem, hne,
    Listed, ← or_assoc]
  rw [or_assoc (b := strip (lower pw) ∈ COMMON)]
  split
  next h => simp [h]
  next h =>
    split
    next h' => simp [h']
    next h' => simp [h, h', estimate, adviceOf_ne_common]

/-! ## A disguise -/

/-- A lower-case letter, as the words of the list have them. -/
def isAlpha (c : UInt16) : Bool := isLower c || c = 0x142

def upperUnit (c : UInt16) : UInt16 := if c = 0x142 then 0x141 else c - 0x20

def lowerUnit (u : UInt16) : UInt16 := if isUpper u then u + 0x20 else if u = 0x141 then 0x142 else u

/-- What `toLowerCase` does with the characters of ASCII and those of the list. -/
structure Lowers (lower : Units → Units) : Prop where
  map : ∀ s : Units, (∀ u ∈ s, u < 0x80 ∨ u = 0x141 ∨ u = 0x142) → lower s = s.map lowerUnit

/-- A letter is typed as itself, in upper case, or in disguise. -/
def Typed (u c : UInt16) : Prop := u = c ∨ u = upperUnit c ∨ LEET u = some c

def isTail (u : UInt16) : Bool := u < 0x80 && !isLetter u

def undone (c : UInt16) : Bool := [0x61, 0x65, 0x6C, 0x69, 0x6F, 0x73, 0x74, 0x62].contains c

theorem LEET_some {u c : UInt16} (h : LEET u = some c) : isTail u = true ∧ undone c = true := by
  have hu : u = UInt16.ofNat u.toNat := by simp
  rw [LEET] at h
  split at h
  case h_11 => cases h
  all_goals
    next hn =>
      cases h
      rw [hu, hn]
      decide

theorem tail_not_letter {u : UInt16} (h : isTail u = true) : isLetter u = false := by
  simpa using (Bool.and_eq_true_iff.mp h).2

theorem alpha_not_tail {c : UInt16} (h : isAlpha c = true) : isTail c = false := by
  rcases Bool.or_eq_true_iff.mp h with hl | hc
  · simp [isTail, isLetter, hl]
  · rw [decide_eq_true_eq.mp hc]
    rfl

theorem LEET_alpha {c : UInt16} (h : isAlpha c = true) : LEET c = none := by
  cases hc : LEET c with
  | none => rfl
  | some a =>
      have htail := (LEET_some hc).1
      rw [alpha_not_tail h] at htail
      cases htail

theorem alpha_cases {c : UInt16} (h : isAlpha c = true) : c = 0x142 ∨ ∃ i : Fin 26, c = UInt16.ofNat (0x61 + i.val) := by
  rcases Bool.or_eq_true_iff.mp h with hl | hc
  · simp only [isLower, Bool.and_eq_true, decide_eq_true_eq, UInt16.le_iff_toNat_le] at hl
    have hlo : 0x61 ≤ c.toNat := hl.1
    have hhi : c.toNat ≤ 0x7A := hl.2
    refine .inr ⟨⟨c.toNat - 0x61, by omega⟩, ?_⟩
    rw [Nat.add_sub_cancel' hlo, UInt16.ofNat_toNat]
  · exact .inl (decide_eq_true_eq.mp hc)

theorem lowerUnit_alpha {c : UInt16} (h : isAlpha c = true) :
    lowerUnit c = c ∧ lowerUnit (upperUnit c) = c ∧ LEET (upperUnit c) = none ∧
      (c < 0x80 ∨ c = 0x142) ∧ (upperUnit c < 0x80 ∨ upperUnit c = 0x141) := by
  rcases alpha_cases h with rfl | ⟨i, rfl⟩
  · decide
  · revert i
    decide

theorem lowerUnit_tail {u : UInt16} (h : isTail u = true) : lowerUnit u = u := by
  have hletter : isUpper u = false := (Bool.or_eq_false_iff.mp (tail_not_letter h)).2
  have hne : u ≠ 0x141 := by
    rintro rfl
    cases h
  rw [lowerUnit, hletter, if_neg Bool.false_ne_true, if_neg hne]

/-- What is typed for a letter is that letter, once it is in lower case and the disguise is undone. -/
theorem Typed.lowered {u c : UInt16} (h : Typed u c) (hc : isAlpha c = true) :
    unleet (lowerUnit u) = c ∧ LEET (lowerUnit u) = LEET u ∧ (u < 0x80 ∨ u = 0x141 ∨ u = 0x142) := by
  obtain ⟨hself, hback, hplain, hrange, hupper⟩ := lowerUnit_alpha hc
  have hnone := LEET_alpha hc
  rcases h with rfl | rfl | hleet
  · rw [hself, unleet, hnone]
    exact ⟨rfl, rfl, hrange.imp_right .inr⟩
  · rw [hback, unleet, hnone, hplain]
    exact ⟨rfl, rfl, hupper.imp_right .inl⟩
  · have htail := (LEET_some hleet).1
    rw [lowerUnit_tail htail, unleet, hleet]
    exact ⟨rfl, rfl, .inl (decide_eq_true_eq.mp (Bool.and_eq_true_iff.mp htail).1)⟩

/-! ## The words of the list -/

/-- What the tail may leave after a word, once the disguise is undone. -/
def loose (u : UInt16) : Bool := undone u || (isTail u && (LEET u).isNone)

/-- No other word of the list is `w` with a tail, begins with `w` in disguise, or is what a disguise of `w` has left of
`w` when its end is cut off. -/
def apart (w c : Units) : Bool :=
  (!w.isPrefixOf c || c = w || (c.drop w.length).any fun u => !loose u) &&
    (!((c.take w.length).map unleet = w) || c.take w.length = w) &&
    (!(c.map unleet).isPrefixOf w || c = w || (w.drop c.length).any fun u => isLower u && !undone u)

def meets : Units → Units → Bool
  | u :: _, v :: _ => Nat.beq u.toNat (unleet v).toNat
  | _, _ => false

/-- And a word ends in a letter that the tail is not taken for. -/
def allApart (C : List Units) : Bool :=
  C.all fun w => !w.all isAlpha || isLetter (w.getLastD 0) && C.all fun c => !meets w c || apart w c

theorem common_apart : allApart COMMON = true := by
  simp only [COMMON, ascii, List.map_cons, List.map_nil, String.reduceToList, Char.reduceToNat]
  decide +kernel

variable {w c d t y : Units}

theorem common_word (hw : w ∈ COMMON) (halpha : ∀ u ∈ w, isAlpha u = true) :
    isLetter (w.getLastD 0) = true ∧ ∀ c ∈ COMMON, meets w c = true → apart w c = true := by
  have h := common_apart
  simp only [allApart, List.all_eq_true, Bool.or_eq_true, Bool.and_eq_true, Bool.not_eq_true'] at h
  rcases h w hw with hbad | ⟨hlast, hall⟩
  · rw [List.all_eq_true.mpr halpha] at hbad
    cases hbad
  · exact ⟨hlast, fun c hc hm => (hall c hc).resolve_left (by simp [hm])⟩

theorem meets_of {u v : UInt16} {us vs : Units} (h : unleet v = u) : meets (u :: us) (v :: vs) = true := by
  simp [meets, h]

theorem append_not_common (hw : w ∈ COMMON) (halpha : ∀ u ∈ w, isAlpha u = true) (hy : y ≠ [])
    (hloose : ∀ u ∈ y, loose u = true) : w ++ y ∉ COMMON := by
  intro hc
  have hm : meets w (w ++ y) = true := by
    cases w with
    | nil => exact absurd hw nil_not_common
    | cons u us => exact meets_of (by rw [unleet, LEET_alpha (halpha u List.mem_cons_self)]; rfl)
  have h := (common_word hw halpha).2 _ hc hm
  simp only [apart, Bool.and_eq_true, Bool.or_eq_true] at h
  rcases h.1.1 with (hpre | hself) | hany
  · rw [List.isPrefixOf_iff_prefix.mpr (List.prefix_append w y)] at hpre
    cases hpre
  · simp [hy] at hself
  · rw [List.drop_left, List.any_eq_true] at hany
    obtain ⟨u, hu, hbad⟩ := hany
    simp [hloose u hu] at hbad

theorem disguise_nonempty (hleet : ∃ u ∈ d, LEET u ≠ none) : d ≠ [] := by
  obtain ⟨u, hu, -⟩ := hleet
  exact List.ne_nil_of_mem hu

section Disguise

variable (hw : w ∈ COMMON) (halpha : ∀ u ∈ w, isAlpha u = true) (hd : d.map unleet = w) (hleet : ∃ u ∈ d, LEET u ≠ none)
include hw halpha hd hleet

theorem disguise_ne : d ≠ w := by
  rintro rfl
  obtain ⟨u, hu, hne⟩ := hleet
  exact hne (LEET_alpha (halpha u hu))

theorem meets_disguise (hc : c ≠ []) (hp : c <+: d ++ t) : meets w c = true := by
  obtain ⟨rest, hrest⟩ := hp
  cases d with
  | nil => exact absurd rfl (disguise_nonempty hleet)
  | cons v vs =>
      cases c with
      | nil => exact absurd rfl hc
      | cons u us =>
          subst hd
          rw [List.cons_append, List.cons_append, List.cons.injEq] at hrest
          exact meets_of (by rw [hrest.1])

theorem disguise_not_common : d ++ t ∉ COMMON := by
  intro hc
  have hne : d ++ t ≠ [] := List.append_ne_nil_of_left_ne_nil (disguise_nonempty hleet) t
  have h := (common_word hw halpha).2 _ hc (meets_disguise hw halpha hd hleet hne List.prefix_rfl)
  have htake : (d ++ t).take w.length = d := by rw [← hd, List.length_map, List.take_left]
  simp only [apart, htake, Bool.and_eq_true, Bool.or_eq_true] at h
  rcases h.1.2 with hbad | hself
  · simp [hd] at hbad
  · exact disguise_ne hw halpha hd hleet (decide_eq_true_eq.mp hself)

theorem cut_not_common (hc : c ≠ []) (hrest : ∀ u ∈ y, isLetter u = false) (hcut : d = c ++ y) : c ∉ COMMON := by
  intro hmem
  have hm := meets_disguise (t := []) hw halpha hd hleet hc (by rw [List.append_nil, hcut]; exact List.prefix_append c y)
  have h := (common_word hw halpha).2 _ hmem hm
  simp only [apart, Bool.and_eq_true, Bool.or_eq_true] at h
  have hw' : w = c.map unleet ++ y.map unleet := by rw [← hd, hcut, List.map_append]
  rcases h.2 with (hpre | hself) | hany
  · rw [List.isPrefixOf_iff_prefix.mpr (hw' ▸ List.prefix_append _ _)] at hpre
    cases hpre
  · have hy : y = [] := by
      have hlen := congrArg List.length (hw'.symm.trans (decide_eq_true_eq.mp hself).symm)
      simpa using hlen
    refine disguise_ne hw halpha hd hleet ?_
    rw [hcut, hy, List.append_nil]
    exact decide_eq_true_eq.mp hself
  · have hdrop : w.drop c.length = y.map unleet := by
      rw [hw']
      exact List.drop_left' (List.length_map _)
    rw [hdrop, List.any_eq_true] at hany
    obtain ⟨u, hu, hbad⟩ := hany
    obtain ⟨v, hv, rfl⟩ := List.mem_map.mp hu
    have hletter := hrest v hv
    cases hl : LEET v with
    | none =>
        rw [unleet, hl, Option.getD_none] at hbad
        simp [isLetter] at hletter
        simp [hletter.1] at hbad
    | some a =>
        rw [unleet, hl, Option.getD_some] at hbad
        simp [(LEET_some hl).2] at hbad

end Disguise

/-! ## The tail -/

theorem strip_append (hy : ∀ u ∈ y, isLetter u = false) : strip (w ++ y) = strip w := by
  rw [strip, strip, List.rdropWhile, List.reverse_append, List.dropWhile_append_of_pos (by simpa using hy)]
  rfl

theorem strip_append_letter (hy : strip y ≠ []) : strip (w ++ y) = w ++ strip y := by
  have hne : (y.reverse.dropWhile fun c => !isLetter c) ≠ [] := by
    intro h
    exact hy (by rw [strip, List.rdropWhile, h, List.reverse_nil])
  rw [strip, strip, List.rdropWhile, List.rdropWhile, List.reverse_append, List.dropWhile_append, if_neg (by simpa using hne),
    List.reverse_append, List.reverse_reverse]

theorem strip_word (hw : w ∈ COMMON) (halpha : ∀ u ∈ w, isAlpha u = true) : strip w = w := by
  rw [strip, List.rdropWhile_eq_self_iff]
  intro hne
  have hlast := (common_word hw halpha).1
  rw [List.getLastD_eq_getLast?, List.getLast?_eq_getLast_of_ne_nil hne, Option.getD_some] at hlast
  simp [hlast]

theorem strip_cut (s : Units) : ∃ y, s = strip s ++ y ∧ ∀ u ∈ y, isLetter u = false := by
  refine ⟨s.rtakeWhile fun c => !isLetter c, List.rdropWhile_append_rtakeWhile.symm, ?_⟩
  intro u hu
  simpa using List.mem_rtakeWhile_imp hu

theorem loose_tail (ht : ∀ u ∈ t, isTail u = true) : ∀ u ∈ t.map unleet, loose u = true := by
  intro u hu
  obtain ⟨v, hv, rfl⟩ := List.mem_map.mp hu
  cases hl : LEET v with
  | none => simp [unleet, loose, hl, ht v hv]
  | some a => simp [unleet, loose, hl, (LEET_some hl).2]

theorem undone_letter {u : UInt16} (h : undone u = true) : isLetter u = true := by
  simp only [undone, List.contains_iff_mem, List.mem_cons, List.not_mem_nil, or_false] at h
  rcases h with rfl | rfl | rfl | rfl | rfl | rfl | rfl | rfl <;> rfl

theorem strip_undone_tail (hleet : ∃ u ∈ t, LEET u ≠ none) : strip (t.map unleet) ≠ [] := by
  obtain ⟨u, hu, hne⟩ := hleet
  obtain ⟨a, ha⟩ := Option.ne_none_iff_exists'.mp hne
  intro hnil
  rw [strip, List.rdropWhile_eq_nil_iff] at hnil
  have hletter := hnil (unleet u) (List.mem_map_of_mem hu)
  rw [unleet, ha, Option.getD_some, undone_letter (LEET_some ha).2] at hletter
  cases hletter

/-- The list is met when the word is written in letters, or nothing in the tail is undone. -/
theorem listed_iff (hw : w ∈ COMMON) (halpha : ∀ u ∈ w, isAlpha u = true) (hd : d.map unleet = w)
    (ht : ∀ u ∈ t, isTail u = true) :
    Listed (d ++ t) ↔ (∀ u ∈ d, LEET u = none) ∨ ∀ u ∈ t, LEET u = none := by
  have hplain : ∀ s : Units, (∀ u ∈ s, LEET u = none) → s.map unleet = s := by
    intro s hs
    calc s.map unleet = s.map id := List.map_congr_left fun u hu => by rw [unleet, hs u hu]; rfl
      _ = s := List.map_id s
  have hletters : ∀ s : Units, (∀ u ∈ s, isTail u = true) → ∀ u ∈ s, isLetter u = false :=
    fun s hs u hu => tail_not_letter (hs u hu)
  have hundone : (d ++ t).map unleet = w ++ t.map unleet := by rw [List.map_append, hd]
  constructor
  · intro h
    by_contra hboth
    push Not at hboth
    obtain ⟨hleet, htail⟩ := hboth
    have htne : t.map unleet ≠ [] := by simpa using disguise_nonempty htail
    rcases h with h | h | h | h
    · exact disguise_not_common hw halpha hd hleet h
    · rw [hundone] at h
      exact append_not_common hw halpha htne (loose_tail ht) h
    · rw [strip_append (hletters t ht)] at h
      obtain ⟨y, hy, hrest⟩ := strip_cut d
      refine cut_not_common hw halpha hd hleet (fun hnil => nil_not_common (hnil ▸ h)) hrest hy h
    · rw [hundone, strip_append_letter (strip_undone_tail htail)] at h
      obtain ⟨y, hy, -⟩ := strip_cut (t.map unleet)
      refine append_not_common hw halpha (strip_undone_tail htail) (fun u hu => loose_tail ht u ?_) h
      rw [hy]
      exact List.mem_append_left y hu
  · rintro (hnone | hnone)
    · refine .inr (.inr (.inl ?_))
      rw [strip_append (hletters t ht), ← hplain d hnone, hd, strip_word hw halpha]
      exact hw
    · refine .inr (.inr (.inr ?_))
      rw [hundone, hplain t hnone, strip_append (hletters t ht), strip_word hw halpha]
      exact hw

theorem typed_lower (hd : List.Forall₂ Typed d w) (halpha : ∀ u ∈ w, isAlpha u = true) :
    (d.map lowerUnit).map unleet = w ∧ (d.map lowerUnit).map LEET = d.map LEET ∧
      ∀ u ∈ d, u < 0x80 ∨ u = 0x141 ∨ u = 0x142 := by
  induction hd with
  | nil => simp
  | cons h _ ih =>
      obtain ⟨hc, hrest⟩ := List.forall_mem_cons.mp halpha
      obtain ⟨hun, hleet, hrange⟩ := h.lowered hc
      obtain ⟨ihun, ihleet, ihrange⟩ := ih hrest
      simp only [List.map_cons, hun, hleet, ihun, ihleet, List.forall_mem_cons, true_and]
      exact ⟨hrange, ihrange⟩

/-- A word of the list in disguise, with a tail, is refused as common when the word is written in letters, or the tail
has no character that stands for one. -/
theorem dressed_up_refused (hlower : Lowers lower) (hw : w ∈ COMMON) (halpha : ∀ u ∈ w, isAlpha u = true)
    (hd : List.Forall₂ Typed d w) (ht : ∀ u ∈ t, isTail u = true) :
    ((assessPassword lower bitsOf (d ++ t)).score = 0 ∧ (assessPassword lower bitsOf (d ++ t)).advice = .common ∧
      (assessPassword lower bitsOf (d ++ t)).score < ENFORCE_MIN) ↔
      (∀ u ∈ d, LEET u = none) ∨ ∀ u ∈ t, LEET u = none := by
  obtain ⟨hun, hleet, hrange⟩ := typed_lower hd halpha
  have hne : d ++ t ≠ [] := by
    rintro h
    rw [(List.append_eq_nil_iff.mp h).1] at hd
    cases hd
    exact nil_not_common hw
  have hlow : lower (d ++ t) = d.map lowerUnit ++ t := by
    rw [hlower.map, List.map_append, List.append_cancel_left_eq]
    · calc t.map lowerUnit = t.map id := List.map_congr_left fun u hu => lowerUnit_tail (ht u hu)
        _ = t := List.map_id t
    · intro u hu
      rcases List.mem_append.mp hu with hu | hu
      · exact hrange u hu
      · exact .inl (decide_eq_true_eq.mp (Bool.and_eq_true_iff.mp (ht u hu)).1)
  have hsame : (∀ u ∈ d.map lowerUnit, LEET u = none) ↔ ∀ u ∈ d, LEET u = none := by
    have hall : ∀ s : Units, (∀ u ∈ s, LEET u = none) ↔ ∀ o ∈ s.map LEET, o = none := by simp
    rw [hall, hall, hleet]
  have hbelow : (assessPassword lower bitsOf (d ++ t)).score = 0 →
      (assessPassword lower bitsOf (d ++ t)).score < ENFORCE_MIN := by
    intro h
    rw [h]
    decide
  rw [← hsame, ← listed_iff hw halpha hun ht, ← hlow, ← @assess_common_iff lower bitsOf _ hne]
  exact ⟨fun h => ⟨h.1, h.2.1⟩, fun h => ⟨h.1, h.2, hbelow h.1⟩⟩

theorem lowers_map : Lowers (List.map lowerUnit) := ⟨fun _ _ => rfl⟩

theorem password_common : ascii "password" ∈ COMMON := by
  simp [COMMON]

theorem typed_password : List.Forall₂ Typed (ascii "P@ssw0rd") (ascii "password") := by
  simp [ascii, Typed, upperUnit, LEET]

theorem dressed_up_refused_asked :
    (assessPassword (List.map lowerUnit) (fun _ _ => 0) (ascii "P@ssw0rd" ++ ascii "?")).advice = .common := by
  have halpha : ∀ u ∈ ascii "password", isAlpha u = true := by simp [ascii, isAlpha, isLower]
  have ht : ∀ u ∈ ascii "?", isTail u = true := by simp [ascii, isTail, isLetter, isLower, isUpper]
  have h := @dressed_up_refused (List.map lowerUnit) (fun _ _ => 0) _ _ _ lowers_map password_common halpha typed_password ht
  exact (h.mpr (.inr (by simp [ascii, LEET]))).2.1

/-- `P@ssw0rd1`: the one is taken for a letter, and the tail is no longer cut off. -/
theorem dressed_up_accepted : ¬ ∀ (lower : Units → Units) (bitsOf : ℚ → Nat → Int), Lowers lower → ∀ w ∈ COMMON,
    (∀ u ∈ w, isAlpha u = true) → ∀ d t, List.Forall₂ Typed d w → (∀ u ∈ t, isTail u = true) →
    (assessPassword lower bitsOf (d ++ t)).score = 0 ∧ (assessPassword lower bitsOf (d ++ t)).advice = .common ∧
      (assessPassword lower bitsOf (d ++ t)).score < ENFORCE_MIN := by
  intro h
  have halpha : ∀ u ∈ ascii "password", isAlpha u = true := by simp [ascii, isAlpha, isLower]
  have ht : ∀ u ∈ ascii "1", isTail u = true := by simp [ascii, isTail, isLetter, isLower, isUpper]
  obtain ⟨hscore, hadvice, -⟩ := h (List.map lowerUnit) (fun _ _ => 0) lowers_map _ password_common halpha
    (ascii "P@ssw0rd") (ascii "1") typed_password ht
  have hlisted := (assess_common_iff (by simp [ascii])).mp ⟨hscore, hadvice⟩
  rw [List.map_append, show (ascii "1").map lowerUnit = ascii "1" by simp [ascii, lowerUnit, isUpper],
    listed_iff password_common halpha (typed_lower typed_password halpha).1 ht] at hlisted
  rcases hlisted with hno | hno
  · exact absurd (hno 0x40 (by simp [ascii, lowerUnit, isUpper])) (by decide)
  · exact absurd (hno 0x31 (by simp [ascii])) (by decide)

end EncedoChat.Password
