import Mathlib.Data.Int.Basic
import Mathlib.Tactic.Linarith
import Mathlib.Data.Nat.Basic

/-!
# The calendar

The days since 1970-01-01 as years, months and days of the month, as ECMAScript counts them: the year of a day is the
last that starts by it, and a date is a number of days after the first of its month.
-/

namespace EncedoChat.Calendar

/-- The first day of a year. -/
def dayFromYear (y : Int) : Int :=
  365 * (y - 1970) + (y - 1969) / 4 - (y - 1901) / 100 + (y - 1601) / 400

/-- The mean year has 146097 / 400 days, and no year starts a year off the mean. -/
def yearFromDay (d : Int) : Int :=
  let y := 1970 + d * 400 / 146097
  if d < dayFromYear y then y - 1 else if dayFromYear (y + 1) ≤ d then y + 1 else y

def leap (y : Int) : Bool := y % 4 = 0 ∧ (y % 100 ≠ 0 ∨ y % 400 = 0)

/-- The days of the year before a month; months count from 0, and there is none from 12 on. -/
def monthStart (leap : Bool) (m : Nat) : Int :=
  [0, 31, 59, 90, 120, 151, 181, 212, 243, 273, 304, 334].getD m 0 + if leap ∧ 2 ≤ m then 1 else 0

/-- The month of a day of the year. -/
def monthOf (leap : Bool) (day : Int) : Nat :=
  ((List.range 12).filter fun m => monthStart leap m ≤ day).length - 1

def month (d : Int) : Nat := monthOf (leap (yearFromDay d)) (d - dayFromYear (yearFromDay d))

/-- The day of the month, from 1. -/
def date (d : Int) : Int :=
  d - dayFromYear (yearFromDay d) - monthStart (leap (yearFromDay d)) (month d) + 1

/-- `MakeDay`: the days after the first of the month may leave the month. -/
def makeDay (y : Int) (m : Nat) (dt : Int) : Int := dayFromYear y + monthStart (leap y) m + dt - 1

theorem makeDay_add (d n : Int) : makeDay (yearFromDay d) (month d) (date d + n) = d + n := by
  rw [makeDay, date]
  omega

theorem dayFromYear_succ (y : Int) : dayFromYear (y + 1) = dayFromYear y + if leap y then 366 else 365 := by
  rw [dayFromYear, dayFromYear, leap]
  split <;> rename_i h <;> simp only [decide_eq_true_eq, decide_not] at h <;> omega

/-- The year by the mean length is the right one or beside it. -/
theorem estimate (d : Int) :
    dayFromYear (1970 + d * 400 / 146097 - 1) ≤ d ∧ d < dayFromYear (1970 + d * 400 / 146097 + 1 + 1) := by
  constructor <;> rw [dayFromYear] <;> omega

theorem yearFromDay_spec (d : Int) : dayFromYear (yearFromDay d) ≤ d ∧ d < dayFromYear (yearFromDay d + 1) := by
  obtain ⟨hlow, hhigh⟩ := estimate d
  rw [yearFromDay]
  split
  · exact ⟨hlow, by rwa [sub_add_cancel]⟩
  · split
    · exact ⟨‹_›, hhigh⟩
    · exact ⟨by omega, by omega⟩

theorem monthOf_spec (leap : Bool) {day : Nat} (h : day < if leap then 366 else 365) :
    monthOf leap day < 12 ∧ monthStart leap (monthOf leap day) ≤ day ∧
      day < monthStart leap (monthOf leap day) + 31 := by
  revert day
  cases leap <;> decide +kernel

/-- A date has a month and a day of it. -/
theorem date_spec (d : Int) : month d < 12 ∧ 1 ≤ date d ∧ date d ≤ 31 := by
  obtain ⟨hlow, hhigh⟩ := yearFromDay_spec d
  rw [dayFromYear_succ] at hhigh
  obtain ⟨day, hday⟩ := Int.eq_ofNat_of_zero_le (sub_nonneg.mpr hlow)
  have hlt : day < if leap (yearFromDay d) then 366 else 365 := by
    split at hhigh <;> split <;> simp_all <;> omega
  obtain ⟨hm, hstart, hend⟩ := monthOf_spec _ hlt
  rw [month, date, month, hday]
  exact ⟨hm, by omega, by omega⟩

/-! ## Texts -/

/-- The last `w` decimal digits. -/
def decimal : Nat → Nat → List Char
  | 0, _ => []
  | w + 1, n => decimal w (n / 10) ++ [Char.ofNat (48 + n % 10)]

def readDecimal (cs : List Char) : Option Nat :=
  cs.foldl (fun n c => n.bind fun n => if c.isDigit then some (10 * n + (c.toNat - 48)) else none) (some 0)

/-- `new Date(ts).toISOString().slice(0, 10)`, for the day of `ts`. -/
def isoDate (d : Int) : List Char :=
  let y := yearFromDay d
  let year := if 0 ≤ y ∧ y ≤ 9999 then decimal 4 y.toNat else (if y < 0 then '-' else '+') :: decimal 6 y.natAbs
  (year ++ '-' :: decimal 2 (month d + 1) ++ '-' :: decimal 2 (date d).toNat).take 10

/-- The day of a date whose year has four digits; `Date.parse` of it and a midnight. -/
def readDate : List Char → Option Int
  | [y₀, y₁, y₂, y₃, '-', m₀, m₁, '-', d₀, d₁] =>
    match readDecimal [y₀, y₁, y₂, y₃], readDecimal [m₀, m₁], readDecimal [d₀, d₁] with
    | some y, some m, some d => if 1 ≤ m ∧ m ≤ 12 ∧ 1 ≤ d ∧ d ≤ 31 then some (makeDay y (m - 1) d) else none
    | _, _, _ => none
  | _ => none

theorem length_decimal (w n : Nat) : (decimal w n).length = w := by
  induction w generalizing n with
  | zero => rfl
  | succ w ih => rw [decimal, List.length_append, ih, List.length_singleton]

theorem digit_spec {k : Nat} (h : k < 10) : (Char.ofNat (48 + k)).isDigit ∧ (Char.ofNat (48 + k)).toNat = 48 + k := by
  revert k
  decide

theorem readDecimal_decimal {w n : Nat} (h : n < 10 ^ w) : readDecimal (decimal w n) = some n := by
  induction w generalizing n with
  | zero =>
      obtain rfl : n = 0 := by omega
      rfl
  | succ w ih =>
      have hw : n / 10 < 10 ^ w := Nat.div_lt_of_lt_mul (by rwa [← pow_succ'])
      obtain ⟨hdigit, hval⟩ := digit_spec (Nat.mod_lt n (by decide : 0 < 10))
      rw [decimal, readDecimal, List.foldl_append]
      have hih := ih hw
      rw [readDecimal] at hih
      rw [hih]
      simp only [List.foldl_cons, List.foldl_nil, Option.bind_some, hdigit, hval, if_true]
      congr 1
      omega

/-- The days whose year has four digits. -/
def FourDigits (d : Int) : Prop := 0 ≤ yearFromDay d ∧ yearFromDay d < 10000

theorem isoDate_eq {d : Int} (h : FourDigits d) : isoDate d =
    decimal 4 (yearFromDay d).toNat ++ '-' :: decimal 2 (month d + 1) ++ '-' :: decimal 2 (date d).toNat := by
  obtain ⟨hlo, hhi⟩ := h
  rw [isoDate, if_pos ⟨hlo, by omega⟩]
  exact List.take_of_length_le (by simp [length_decimal])

theorem readDate_isoDate {d : Int} (h : FourDigits d) : readDate (isoDate d) = some d := by
  obtain ⟨hm, hlo, hhi⟩ := date_spec d
  rw [isoDate_eq h]
  obtain ⟨y₀, y₁, y₂, y₃, hy⟩ : ∃ a b c e, decimal 4 (yearFromDay d).toNat = [a, b, c, e] := ⟨_, _, _, _, rfl⟩
  obtain ⟨m₀, m₁, hmm⟩ : ∃ a b, decimal 2 (month d + 1) = [a, b] := ⟨_, _, rfl⟩
  obtain ⟨d₀, d₁, hd⟩ : ∃ a b, decimal 2 (date d).toNat = [a, b] := ⟨_, _, rfl⟩
  have hyear : readDecimal [y₀, y₁, y₂, y₃] = some (yearFromDay d).toNat := by
    rw [← hy]
    exact readDecimal_decimal (by have := h.1; have := h.2; omega)
  have hmonth : readDecimal [m₀, m₁] = some (month d + 1) := by
    rw [← hmm]
    exact readDecimal_decimal (by omega)
  have hdate : readDecimal [d₀, d₁] = some (date d).toNat := by
    rw [← hd]
    exact readDecimal_decimal (by omega)
  rw [hy, hmm, hd]
  simp only [List.cons_append, List.nil_append, readDate, hyear, hmonth, hdate]
  rw [if_pos ⟨by omega, by omega, by omega, by omega⟩, Int.toNat_of_nonneg h.1, Int.toNat_of_nonneg (by omega)]
  have hself := makeDay_add d 0
  simpa only [add_zero, Nat.add_sub_cancel] using congrArg some hself

end EncedoChat.Calendar
