import EncedoChat.Lib.Blank
import EncedoChat.Descr.Text
import Mathlib.Data.Nat.Digits.Lemmas

/-!
# Addresses as text

`parseIp` and `formatIp` of `geoip.mjs`.
-/

namespace EncedoChat.Geoip

open Units

inductive Family where
  | v4
  | v6
  deriving DecidableEq

def Family.bits : Family → Nat
  | v4 => 32
  | v6 => 128

/-- `:` -/
def COLON : UInt16 := 0x3A

/-- `.` -/
def DOT : UInt16 := 0x2E

def isDigit (u : UInt16) : Bool := 0x30 ≤ u && u ≤ 0x39

/-- The number of a run of digits. -/
def readDigits (base : Nat) (value : UInt16 → Nat) (s : Units) : Nat := s.foldl (fun n u => n * base + value u) 0

def decValue (u : UInt16) : Nat := u.toNat - 48

def hexValue (u : UInt16) : Nat := (Descr.hexValue u).getD 0

/-- `/^\d{1,3}$/` and at most 255 -/
def readByte (x : Units) : Option Nat :=
  if 1 ≤ x.length ∧ x.length ≤ 3 ∧ x.all isDigit then
    if 255 < readDigits 10 decValue x then none else some (readDigits 10 decValue x)
  else none

/-- `/^[0-9a-fA-F]{1,4}$/` -/
def readGroup (g : Units) : Option Nat :=
  if 1 ≤ g.length ∧ g.length ≤ 4 ∧ g.all (fun u => (Descr.hexValue u).isSome) then some (readDigits 16 hexValue g) else none

/-- Numbers of `width` bits, one after the other. -/
def readParts (width : Nat) (read : Units → Option Nat) (parts : List Units) : Option Nat :=
  parts.foldlM (fun n x => (read x).map fun b => n * 2 ^ width + b) 0

/-- `s.split('::')` -/
def splitDouble : Units → List Units
  | [] => [[]]
  | [u] => [[u]]
  | u :: v :: s => if u = COLON ∧ v = COLON then [] :: splitDouble s else (splitDouble (v :: s)).modifyHead (u :: ·)

/-- `half ? half.split(':') : []` -/
def splitHalf (half : Units) : List Units := if half = [] then [] else half.splitOn COLON

def readV6 (s : Units) : Option Nat :=
  match splitDouble s with
  | [head] => if (splitHalf head).length = 8 then readParts 16 readGroup (splitHalf head) else none
  | [head, tail] =>
    if 8 < (splitHalf head).length + (splitHalf tail).length then none
    else readParts 16 readGroup (splitHalf head ++
      List.replicate (8 - (splitHalf head).length - (splitHalf tail).length) [0x30] ++ splitHalf tail)
  | _ => none

def parseIp (s : Units) : Option (Family × Nat) :=
  let s := trim s
  let s := if (ascii "::ffff:").isPrefixOf s ∧ DOT ∈ s then s.drop 7 else s
  if DOT ∈ s ∧ COLON ∉ s then
    if (s.splitOn DOT).length = 4 then (readParts 8 readByte (s.splitOn DOT)).map fun n => (.v4, n) else none
  else if COLON ∉ s then none
  else (readV6 (s.takeWhile (· ≠ 0x25))).map fun n => (.v6, n)

/-- `n.toString(16)` -/
def hexText (n : Nat) : Units := if n = 0 then [0x30] else (Nat.digits 16 n).reverse.map hexDigit

/-- The longest run of zero groups, from the place `i` on: where it begins, and its length. -/
def longestRun (i : Nat) (g : List Units) (best : Option Nat) (len : Nat) : Option Nat × Nat :=
  match g with
  | [] => (best, len)
  | x :: xs =>
    if x ≠ [0x30] then longestRun (i + 1) xs best len
    else
      let run := ((x :: xs).takeWhile (· = [0x30])).length
      if len < run ∧ 1 < run then longestRun (i + run) (xs.drop (run - 1)) (some i) run
      else longestRun (i + run) (xs.drop (run - 1)) best len
termination_by g.length
decreasing_by
  all_goals simp

def groups (n : Nat) : List Units := [7, 6, 5, 4, 3, 2, 1, 0].map fun i => hexText (n / 2 ^ (16 * i) % 65536)

def formatIp (v : Family) (n : Nat) : Units :=
  match v with
  | .v4 => [DOT].intercalate ([24, 16, 8, 0].map fun s => num (n / 2 ^ s % 256))
  | .v6 =>
    match longestRun 0 (groups n) none 0 with
    | (none, _) => [COLON].intercalate (groups n)
    | (some best, len) =>
      [COLON].intercalate ((groups n).take best) ++ [COLON, COLON] ++ [COLON].intercalate ((groups n).drop (best + len))

/-! ## Digits -/

theorem readDigits_num (n : Nat) : readDigits 10 decValue (num n) = n := by
  rw [num]
  split
  · rename_i h
    rw [h]
    rfl
  · exact foldl_digits (by decide) (by decide) n

theorem readDigits_hexText (n : Nat) : readDigits 16 hexValue (hexText n) = n := by
  rw [hexText]
  split
  · rename_i h
    rw [h]
    rfl
  · exact foldl_digits (by decide) (by decide) n

theorem isDigit_num {n : Nat} {u : UInt16} (h : u ∈ num n) : isDigit u = true := by
  obtain ⟨d, hd, rfl⟩ := mem_num h
  have hdigit : ∀ d < 10, isDigit (UInt16.ofNat (0x30 + d)) = true := by decide
  exact hdigit d hd

theorem isHex_hexText {n : Nat} {u : UInt16} (h : u ∈ hexText n) : Descr.IsLowerHex u := by
  rw [hexText] at h
  split at h
  · rw [List.mem_singleton.mp h]
    exact .inl (by decide)
  · obtain ⟨d, hd, rfl⟩ := List.mem_map.mp h
    exact Descr.isLowerHex_hexDigit d (Nat.digits_lt_base (by decide) (List.mem_reverse.mp hd))

theorem hexText_ne_nil (n : Nat) : hexText n ≠ [] := by
  rw [hexText]
  split
  · simp
  · rename_i h
    rwa [ne_eq, List.map_eq_nil_iff, List.reverse_eq_nil_iff, Nat.digits_eq_nil_iff_eq_zero]

theorem length_hexText {n : Nat} (h : n < 65536) : (hexText n).length ≤ 4 := by
  rw [hexText]
  split
  · exact (by decide : 1 ≤ 4)
  · rw [List.length_map, List.length_reverse]
    exact (Nat.digits_length_le_iff (by decide) n).mpr h

theorem readByte_num {n : Nat} (h : n < 256) : readByte (num n) = some n := by
  have hlen : (num n).length ≤ 3 := length_num_le (by decide) (by omega)
  have hpos := List.length_pos_of_ne_nil (num_ne_nil n)
  rw [readByte, if_pos ⟨hpos, hlen, List.all_eq_true.mpr fun u hu => isDigit_num hu⟩, readDigits_num, if_neg (by omega)]

theorem readGroup_hexText {n : Nat} (h : n < 65536) : readGroup (hexText n) = some n := by
  have hpos := List.length_pos_of_ne_nil (hexText_ne_nil n)
  have hall : (hexText n).all (fun u => (Descr.hexValue u).isSome) = true := by
    rw [List.all_eq_true]
    intro u hu
    obtain ⟨k, -, hk, -⟩ := Descr.hexValue_of_lower (isHex_hexText hu)
    rw [hk]
    rfl
  rw [readGroup, if_pos ⟨hpos, length_hexText h, hall⟩, readDigits_hexText]

/-! ## Parts -/

theorem readParts_map {width : Nat} {read : Units → Option Nat} {text : Nat → Units} {l : List Nat}
    (h : ∀ k ∈ l, read (text k) = some k) :
    readParts width read (l.map text) = some (l.foldl (fun n k => n * 2 ^ width + k) 0) := by
  have hall : ∀ a, (l.map text).foldlM (fun n x => (read x).map fun b => n * 2 ^ width + b) a =
      some (l.foldl (fun n k => n * 2 ^ width + k) a) := by
    induction l with
    | nil => intro a; rfl
    | cons k l ih =>
        intro a
        rw [List.map_cons, List.foldlM_cons, h k List.mem_cons_self, Option.map_some, Option.bind_eq_bind, Option.bind_some,
          ih fun m hm => h m (List.mem_cons_of_mem k hm), List.foldl_cons]
  exact hall 0

theorem fold_bytes {n : Nat} (h : n < 2 ^ 32) :
    ([24, 16, 8, 0].map fun s => n / 2 ^ s % 256).foldl (fun n k => n * 2 ^ 8 + k) 0 = n := by
  simp only [List.map_cons, List.map_nil, List.foldl_cons, List.foldl_nil]
  omega

theorem fold_groups {n : Nat} (h : n < 2 ^ 128) :
    ([7, 6, 5, 4, 3, 2, 1, 0].map fun i => n / 2 ^ (16 * i) % 65536).foldl (fun n k => n * 2 ^ 16 + k) 0 = n := by
  simp only [List.map_cons, List.map_nil, List.foldl_cons, List.foldl_nil]
  omega

/-! ## Colons -/

theorem splitDouble_cons {u : UInt16} (h : u ≠ COLON) (s : Units) : splitDouble (u :: s) = (splitDouble s).modifyHead (u :: ·) := by
  cases s with
  | nil => rfl
  | cons v s => rw [splitDouble, if_neg fun hc => h hc.1]

theorem splitDouble_plain {x : Units} (h : COLON ∉ x) (s : Units) : splitDouble (x ++ s) = (splitDouble s).modifyHead (x ++ ·) := by
  induction x with
  | nil => cases hs : splitDouble s <;> simp [hs]
  | cons u x ih =>
      have hu : u ≠ COLON := fun hu => h (hu ▸ List.mem_cons_self)
      rw [List.cons_append, splitDouble_cons hu, ih fun hm => h (List.mem_cons_of_mem u hm)]
      cases splitDouble s <;> simp

/-- Texts of groups: not empty, and without a colon. -/
def Parts (l : List Units) : Prop := ∀ x ∈ l, x ≠ [] ∧ COLON ∉ x

/-- A joined text has no two colons next to each other. -/
theorem splitDouble_join {l : List Units} (h : Parts l) (s : Units) :
    splitDouble ([COLON].intercalate l ++ s) = (splitDouble s).modifyHead ([COLON].intercalate l ++ ·) := by
  induction l with
  | nil => cases hs : splitDouble s <;> simp [hs]
  | cons x l ih =>
      obtain ⟨hne, hcolon⟩ := h x List.mem_cons_self
      have hrest : Parts l := fun y hy => h y (List.mem_cons_of_mem x hy)
      cases l with
      | nil => rw [List.intercalate_singleton, splitDouble_plain hcolon]
      | cons y l =>
          have hjoin : [COLON].intercalate (x :: y :: l) = x ++ (COLON :: [COLON].intercalate (y :: l)) := by
            rw [List.intercalate_cons_of_ne_nil (by simp)]
            simp
          obtain ⟨hyne, hycolon⟩ := hrest y List.mem_cons_self
          obtain ⟨v, w, hv, hyjoin⟩ : ∃ v w, v ≠ COLON ∧ [COLON].intercalate (y :: l) = v :: w := by
            cases y with
            | nil => exact absurd rfl hyne
            | cons v y =>
                refine ⟨v, ?_⟩
                have hvne : v ≠ COLON := fun hv => hycolon (hv ▸ List.mem_cons_self)
                cases l with
                | nil => exact ⟨y, hvne, by simp⟩
                | cons z l =>
                    refine ⟨y ++ ([COLON] ++ [COLON].intercalate (z :: l)), hvne, ?_⟩
                    rw [List.intercalate_cons_of_ne_nil (by simp)]
                    simp
          have hcons : splitDouble (COLON :: ([COLON].intercalate (y :: l) ++ s)) =
              (splitDouble ([COLON].intercalate (y :: l) ++ s)).modifyHead (COLON :: ·) := by
            rw [hyjoin, List.cons_append, splitDouble, if_neg fun hc => hv hc.2]
          rw [hjoin, List.append_assoc, splitDouble_plain hcolon, List.cons_append, hcons, ih hrest]
          cases splitDouble s <;> simp

theorem splitDouble_one {l : List Units} (h : Parts l) : splitDouble ([COLON].intercalate l) = [[COLON].intercalate l] := by
  have hjoin := splitDouble_join h []
  rw [List.append_nil] at hjoin
  rw [hjoin]
  simp [splitDouble]

theorem splitDouble_two {l r : List Units} (hl : Parts l) (hr : Parts r) :
    splitDouble ([COLON].intercalate l ++ [COLON, COLON] ++ [COLON].intercalate r) =
      [[COLON].intercalate l, [COLON].intercalate r] := by
  have hpair : splitDouble ([COLON, COLON] ++ [COLON].intercalate r) = [[], [COLON].intercalate r] := by
    rw [List.cons_append, List.cons_append, List.nil_append, splitDouble, if_pos ⟨rfl, rfl⟩, splitDouble_one hr]
  rw [List.append_assoc, splitDouble_join hl, hpair]
  simp

theorem splitHalf_join {l : List Units} (h : Parts l) : splitHalf ([COLON].intercalate l) = l := by
  rw [splitHalf]
  cases l with
  | nil => rfl
  | cons x l =>
      have hne : [COLON].intercalate (x :: l) ≠ [] := by
        intro hnil
        have hx := (h x List.mem_cons_self).1
        cases l with
        | nil =>
            rw [List.intercalate_singleton] at hnil
            exact hx hnil
        | cons y l =>
            rw [List.intercalate_cons_of_ne_nil (by simp)] at hnil
            simp at hnil
      rw [if_neg hne, List.splitOn_intercalate COLON (fun y hy => (h y hy).2) (by simp)]

/-! ## The longest run -/

/-- A run within the groups: zeros, from its place on. -/
def IsRun (g : List Units) (r : Option Nat × Nat) : Prop :=
  ∀ best, r.1 = some best → best + r.2 ≤ g.length ∧ g = g.take best ++ List.replicate r.2 [0x30] ++ g.drop (best + r.2)

/-- The zeros in front, and what comes after them. -/
theorem zeros_split {x : Units} (hx : ¬x ≠ [0x30]) (xs : List Units) :
    x :: xs = List.replicate ((x :: xs).takeWhile (· = [0x30])).length [0x30] ++
      xs.drop (((x :: xs).takeWhile (· = [0x30])).length - 1) ∧ 0 < ((x :: xs).takeWhile (· = [0x30])).length := by
  rw [not_not] at hx
  subst hx
  have hall : (([0x30] : Units) :: xs).takeWhile (· = [0x30]) = [0x30] :: xs.takeWhile (· = [0x30]) := by simp
  have hrep : xs.takeWhile (· = [0x30]) = List.replicate (xs.takeWhile (· = [0x30])).length [0x30] := by
    rw [List.eq_replicate_iff]
    refine ⟨rfl, fun y hy => ?_⟩
    have := List.mem_takeWhile_imp hy
    simpa using this
  have hdrop : xs.drop (xs.takeWhile (· = [0x30])).length = xs.dropWhile (· = [0x30]) := by
    have hcut := List.takeWhile_append_dropWhile (p := fun y : Units => decide (y = [0x30])) (l := xs)
    calc xs.drop (xs.takeWhile (· = [0x30])).length
        = (xs.takeWhile (· = [0x30]) ++ xs.dropWhile (· = [0x30])).drop (xs.takeWhile (· = [0x30])).length := by rw [hcut]
      _ = xs.dropWhile (· = [0x30]) := List.drop_left
  rw [hall, List.length_cons, Nat.add_sub_cancel, List.replicate_succ, List.cons_append, ← hrep, hdrop,
    List.takeWhile_append_dropWhile]
  exact ⟨rfl, Nat.succ_pos _⟩

theorem isRun_longestRun (pre g : List Units) {best : Option Nat} {len : Nat} (h : IsRun (pre ++ g) (best, len)) :
    IsRun (pre ++ g) (longestRun pre.length g best len) := by
  generalize hi : pre.length = i
  induction i, g, best, len using longestRun.induct generalizing pre with
  | case1 i best len =>
      rw [longestRun]
      exact h
  | case2 i best len x xs hx ih =>
      rw [longestRun, if_pos hx]
      have hsplit : pre ++ x :: xs = (pre ++ [x]) ++ xs := by simp
      rw [hsplit] at h ⊢
      exact ih (pre ++ [x]) h (by simp [hi])
  | case3 i best len x xs hx run hlong ih =>
      obtain ⟨hzeros, hpos⟩ := zeros_split hx xs
      have hsplit : pre ++ x :: xs = (pre ++ List.replicate run [0x30]) ++ xs.drop (run - 1) := by
        rw [List.append_assoc, ← hzeros]
      have hlen : (pre ++ List.replicate run [0x30]).length = i + run := by
        rw [List.length_append, List.length_replicate, hi]
      rw [longestRun, if_neg hx, if_pos hlong]
      rw [hsplit] at h ⊢
      apply ih _ ?_ hlen
      rintro best' hbest
      obtain rfl := Option.some.inj hbest
      refine ⟨?_, ?_⟩
      · rw [List.length_append, hlen]
        exact Nat.le_add_right _ _
      · have htake : (pre ++ List.replicate run [0x30] ++ xs.drop (run - 1)).take i = pre := by
          rw [List.append_assoc, ← hi, List.take_left]
        rw [htake, ← hlen, List.drop_left]
  | case4 i best len x xs hx run hshort ih =>
      obtain ⟨hzeros, hpos⟩ := zeros_split hx xs
      have hsplit : pre ++ x :: xs = (pre ++ List.replicate run [0x30]) ++ xs.drop (run - 1) := by
        rw [List.append_assoc, ← hzeros]
      have hlen : (pre ++ List.replicate run [0x30]).length = i + run := by
        rw [List.length_append, List.length_replicate, hi]
      rw [longestRun, if_neg hx, if_neg hshort]
      rw [hsplit] at h ⊢
      exact ih _ h hlen

/-! ## An address is read back -/

theorem groups_eq (n : Nat) : groups n = ([7, 6, 5, 4, 3, 2, 1, 0].map fun i => n / 2 ^ (16 * i) % 65536).map hexText := rfl

theorem readParts_groups {n : Nat} (h : n < 2 ^ 128) : readParts 16 readGroup (groups n) = some n := by
  rw [groups_eq, readParts_map, fold_groups h]
  intro k hk
  obtain ⟨i, -, rfl⟩ := List.mem_map.mp hk
  exact readGroup_hexText (Nat.mod_lt _ (by decide))

theorem mem_intercalate {c u : UInt16} {l : List Units} (h : u ∈ [c].intercalate l) : u = c ∨ ∃ x ∈ l, u ∈ x := by
  induction l with
  | nil => cases h
  | cons x l ih =>
      cases l with
      | nil =>
          rw [List.intercalate_singleton] at h
          exact .inr ⟨x, List.mem_cons_self, h⟩
      | cons y l =>
          rw [List.intercalate_cons_of_ne_nil (by simp), List.mem_append, List.mem_append, List.mem_singleton] at h
          rcases h with (h | h) | h
          · exact .inr ⟨x, List.mem_cons_self, h⟩
          · exact .inl h
          · exact (ih h).imp id fun ⟨z, hz, hu⟩ => ⟨z, List.mem_cons_of_mem x hz, hu⟩

theorem trim_plain {s : Units} (h : ∀ u ∈ s, isSpace u = false) : trim s = s :=
  Trimmed.trim_eq ⟨fun u hu => h u (List.mem_of_mem_head? hu), fun u hu => h u (List.mem_of_mem_getLast? hu)⟩

/-- A printing character of ASCII is no blank. -/
theorem not_space {u : UInt16} (hl : 33 ≤ u.toNat) (hr : u.toNat < 127) : isSpace u = false := by
  rw [Bool.eq_false_iff]
  intro h
  simp only [isSpace, Bool.or_eq_true, Bool.and_eq_true, decide_eq_true_iff] at h
  omega

theorem isDigit_bounds {u : UInt16} (h : isDigit u = true) : 48 ≤ u.toNat ∧ u.toNat ≤ 57 := by
  simp only [isDigit, Bool.and_eq_true, decide_eq_true_iff, UInt16.le_iff_toNat_le] at h
  exact h

theorem mem_format_v4 {n : Nat} {u : UInt16} (h : u ∈ formatIp .v4 n) : u = DOT ∨ isDigit u = true := by
  rcases mem_intercalate h with h | ⟨x, hx, hu⟩
  · exact .inl h
  · obtain ⟨s, -, rfl⟩ := List.mem_map.mp hx
    exact .inr (isDigit_num hu)

theorem splitOn_v4 (n : Nat) : (formatIp .v4 n).splitOn DOT = [24, 16, 8, 0].map fun s => num (n / 2 ^ s % 256) := by
  have hno : ∀ x ∈ [24, 16, 8, 0].map (fun s => num (n / 2 ^ s % 256)), DOT ∉ x := by
    intro x hx hmem
    obtain ⟨s, -, rfl⟩ := List.mem_map.mp hx
    exact absurd (isDigit_num hmem) (by decide)
  exact List.splitOn_intercalate DOT hno (by simp)

theorem parse_v4 {n : Nat} (h : n < 2 ^ 32) : parseIp (formatIp .v4 n) = some (.v4, n) := by
  have hcolon : COLON ∉ formatIp .v4 n := by
    intro hc
    rcases mem_format_v4 hc with h | h
    · exact absurd h (by decide)
    · exact absurd h (by decide)
  have htrim : trim (formatIp .v4 n) = formatIp .v4 n := by
    apply trim_plain
    intro u hu
    rcases mem_format_v4 hu with rfl | h
    · decide
    · have := isDigit_bounds h
      exact not_space (by omega) (by omega)
  have hdot : DOT ∈ formatIp .v4 n := by
    rw [formatIp, List.map_cons, List.map_cons, List.intercalate_cons_of_ne_nil (by simp)]
    simp
  have hprefix : ¬((ascii "::ffff:").isPrefixOf (formatIp .v4 n) = true ∧ DOT ∈ formatIp .v4 n) := by
    rintro ⟨hpre, -⟩
    exact hcolon ((List.isPrefixOf_iff_prefix.mp hpre).subset List.mem_cons_self)
  have hparts : readParts 8 readByte ([24, 16, 8, 0].map fun s => num (n / 2 ^ s % 256)) = some n := by
    have hmap : ([24, 16, 8, 0].map fun s => num (n / 2 ^ s % 256)) =
        ([24, 16, 8, 0].map fun s => n / 2 ^ s % 256).map num := rfl
    rw [hmap, readParts_map, fold_bytes h]
    intro k hk
    obtain ⟨s, -, rfl⟩ := List.mem_map.mp hk
    exact readByte_num (Nat.mod_lt _ (by decide))
  simp only [parseIp, htrim]
  rw [if_neg hprefix, if_pos ⟨hdot, hcolon⟩, splitOn_v4, hparts]
  rfl

theorem parts_groups (n : Nat) : ∀ x ∈ groups n, (x ≠ [] ∧ COLON ∉ x) ∧ ∀ u ∈ x, Descr.IsLowerHex u := by
  intro x hx
  obtain ⟨i, -, rfl⟩ := List.mem_map.mp hx
  refine ⟨⟨hexText_ne_nil _, fun hc => ?_⟩, fun u hu => isHex_hexText hu⟩
  have hhex := isHex_hexText hc
  exact absurd hhex (by unfold Descr.IsLowerHex; decide)

/-- The text of an address, as it stands for its groups. -/
theorem format_v6 (n : Nat) : formatIp .v6 n = [COLON].intercalate (groups n) ∨
    ∃ best len, best + len ≤ 8 ∧ groups n = (groups n).take best ++ List.replicate len [0x30] ++ (groups n).drop (best + len) ∧
      formatIp .v6 n = [COLON].intercalate ((groups n).take best) ++ [COLON, COLON] ++
        [COLON].intercalate ((groups n).drop (best + len)) := by
  have hrun : IsRun ([] ++ groups n) (longestRun ([] : List Units).length (groups n) none 0) :=
    isRun_longestRun [] (groups n) fun best hbest => by cases hbest
  rw [List.nil_append, List.length_nil] at hrun
  rw [formatIp]
  cases hr : longestRun 0 (groups n) none 0 with
  | mk best len =>
      rw [hr] at hrun
      cases best with
      | none => exact .inl rfl
      | some best =>
          obtain ⟨hle, hgroups⟩ := hrun best rfl
          exact .inr ⟨best, len, hle, hgroups, rfl⟩

theorem readV6_format {n : Nat} (h : n < 2 ^ 128) : readV6 (formatIp .v6 n) = some n := by
  have hparts : Parts (groups n) := fun x hx => (parts_groups n x hx).1
  have height : (groups n).length = 8 := rfl
  rcases format_v6 n with hone | ⟨best, len, hle, hgroups, htwo⟩
  · rw [hone, readV6, splitDouble_one hparts]
    dsimp only
    rw [splitHalf_join hparts, if_pos height, readParts_groups h]
  · have hl : Parts ((groups n).take best) := fun x hx => hparts x (List.mem_of_mem_take hx)
    have hr : Parts ((groups n).drop (best + len)) := fun x hx => hparts x (List.mem_of_mem_drop hx)
    have hfill : 8 - ((groups n).take best).length - ((groups n).drop (best + len)).length = len := by
      rw [List.length_take, List.length_drop, height]
      omega
    have hfits : ¬8 < ((groups n).take best).length + ((groups n).drop (best + len)).length := by
      rw [List.length_take, List.length_drop, height]
      omega
    rw [htwo, readV6, splitDouble_two hl hr]
    dsimp only
    rw [splitHalf_join hl, splitHalf_join hr, if_neg hfits, hfill, ← hgroups, readParts_groups h]

theorem mem_format_v6 {n : Nat} {u : UInt16} (h : u ∈ formatIp .v6 n) : u = COLON ∨ Descr.IsLowerHex u := by
  have hjoin : ∀ l : List Units, (∀ x ∈ l, x ∈ groups n) → u ∈ [COLON].intercalate l → u = COLON ∨ Descr.IsLowerHex u := by
    intro l hl hu
    exact (mem_intercalate hu).imp id fun ⟨x, hx, hux⟩ => (parts_groups n x (hl x hx)).2 u hux
  rcases format_v6 n with hone | ⟨best, len, -, -, htwo⟩
  · exact hjoin _ (fun x hx => hx) (hone ▸ h)
  · rw [htwo, List.mem_append, List.mem_append] at h
    rcases h with (h | h) | h
    · exact hjoin _ (fun x hx => List.mem_of_mem_take hx) h
    · simp only [List.mem_cons, List.not_mem_nil, or_false, or_self] at h
      exact .inl h
    · exact hjoin _ (fun x hx => List.mem_of_mem_drop hx) h

theorem parse_v6 {n : Nat} (h : n < 2 ^ 128) : parseIp (formatIp .v6 n) = some (.v6, n) := by
  have hcolon : COLON ∈ formatIp .v6 n := by
    rcases format_v6 n with hone | ⟨best, len, -, -, htwo⟩
    · rw [hone, groups, List.map_cons, List.map_cons, List.intercalate_cons_of_ne_nil (by simp)]
      simp
    · rw [htwo]
      simp
  have hbounds : ∀ u ∈ formatIp .v6 n, 48 ≤ u.toNat ∧ u.toNat ≤ 102 := by
    intro u hu
    rcases mem_format_v6 hu with rfl | hhex
    · decide
    · rw [Descr.IsLowerHex] at hhex
      omega
  have htrim : trim (formatIp .v6 n) = formatIp .v6 n := by
    apply trim_plain
    intro u hu
    have := hbounds u hu
    exact not_space (by omega) (by omega)
  have hdot : DOT ∉ formatIp .v6 n := fun hd => absurd (hbounds DOT hd).1 (by decide)
  have hzone : (formatIp .v6 n).takeWhile (· ≠ 0x25) = formatIp .v6 n := by
    rw [List.takeWhile_eq_self_iff]
    intro u hu
    rw [decide_eq_true_iff]
    rintro rfl
    exact absurd (hbounds 0x25 hu).1 (by decide)
  have hprefix : ¬((ascii "::ffff:").isPrefixOf (formatIp .v6 n) = true ∧ DOT ∈ formatIp .v6 n) := fun hc => hdot hc.2
  simp only [parseIp, htrim]
  rw [if_neg hprefix, if_neg (fun hc => hdot hc.1), if_neg (not_not.mpr hcolon), hzone, readV6_format h]
  rfl

/-- An address that is printed is read back. -/
theorem parse_format {v : Family} {n : Nat} (h : n < 2 ^ v.bits) : parseIp (formatIp v n) = some (v, n) := by
  cases v with
  | v4 => exact parse_v4 h
  | v6 => exact parse_v6 h

end EncedoChat.Geoip
