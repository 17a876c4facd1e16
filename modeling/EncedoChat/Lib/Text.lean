import Mathlib.Algebra.GroupWithZero.Nat
import Mathlib.Data.List.Infix
import Mathlib.Data.List.DropRight

/-!
# The strings of the source language

Lengths and cuts are in UTF-16 units. A character cut in half is dropped.
-/

namespace EncedoChat.Text

/-- What `\s` and `trim` take for blank. -/
def isSpace (c : Char) : Bool :=
  let n := c.toNat
  (9 ≤ n && n ≤ 13) || n = 32 || n = 0xA0 || n = 0x1680 || (0x2000 ≤ n && n ≤ 0x200A) || n = 0x2028 || n = 0x2029 ||
    n = 0x202F || n = 0x205F || n = 0x3000 || n = 0xFEFF

def trimList (p : Char → Bool) (s : List Char) : List Char := (s.dropWhile p).rdropWhile p

def trim (s : String) : String := String.ofList (trimList isSpace s.toList)

/-- The length of one character. -/
def units (c : Char) : Nat := if c.toNat < 0x10000 then 1 else 2

def length (s : String) : Nat := (s.toList.map units).sum

/-- `s.slice(0, n)` -/
def take (n : Nat) (s : String) : String :=
  let rec go : Nat → List Char → List Char
    | _, [] => []
    | n, c :: cs => if units c ≤ n then c :: go (n - units c) cs else []
  String.ofList (go n s.toList)

def startsWith (s t : String) : Bool := t.toList.isPrefixOf s.toList

def endsWith (s t : String) : Bool := t.toList.isSuffixOf s.toList

def includes (s t : String) : Bool := s.toList.tails.any t.toList.isPrefixOf

/-- `[lo-hi]` -/
def between (lo hi c : Char) : Bool := lo.toNat ≤ c.toNat && c.toNat ≤ hi.toNat

/-- `/^[…]{lo,hi}$/` -/
def isRun (p : Char → Bool) (lo hi : Nat) (s : String) : Bool :=
  lo ≤ s.toList.length && s.toList.length ≤ hi && s.toList.all p

section
variable {p : Char → Bool} {s : List Char}

theorem trimList_head {c : Char} {cs : List Char} (h : trimList p s = c :: cs) : p c = false := by
  have hpre : c :: cs <+: s.dropWhile p := h ▸ List.rdropWhile_prefix p _
  obtain ⟨t, ht⟩ := hpre
  have hne : s.dropWhile p ≠ [] := by
    rw [← ht]
    simp
  have hhead := List.head_dropWhile_not p hne
  simpa [← ht] using hhead

theorem trimList_trimList (p : Char → Bool) (s : List Char) : trimList p (trimList p s) = trimList p s := by
  have hdrop : (trimList p s).dropWhile p = trimList p s := by
    cases hs : trimList p s with
    | nil => rfl
    | cons c cs =>
        rw [List.dropWhile_cons_of_neg]
        rw [trimList_head hs]
        simp
  rw [trimList, hdrop, trimList, List.rdropWhile_idempotent]

end

theorem trim_trim (s : String) : trim (trim s) = trim s := by
  simp [trim, trimList_trimList]

end EncedoChat.Text
