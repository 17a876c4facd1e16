import Mathlib.Order.Bounds.Basic
import Mathlib.Algebra.Order.Group.Int
import Mathlib.Algebra.Order.Group.Unbundled.Abs
import EncedoChat.Lib.Calendar

/-!
# The days of a topic

`utcDateOf` and its neighbours of `lib/time.ts`, and `rendezvousDay`, `nextRotationAfter` and `activeDatesForOffset` of
`lib/presence.ts`. A date is its number since the epoch; `Iso` has the texts that the source makes of it.
-/

namespace EncedoChat.Presence

/-- Milliseconds since the epoch. -/
abbrev Time := Int

abbrev Date := Int

def DAY : Int := 86400000

def utcDateOf (ts : Time) : Date := ts / DAY

def msToNextUTCMidnight (ts : Time) : Int := DAY - ts % DAY

def msSincePrevUTCMidnight (ts : Time) : Int := ts % DAY

/-- The default half-window of the guard around a rotation. -/
def OVERLAP_MS : Int := 30 * 60000

def rendezvousDay (now offsetMs : Int) : Date := utcDateOf (now - offsetMs)

def nextRotationAfter (now offsetMs : Int) : Time := (utcDateOf (now - offsetMs) + 1) * DAY + offsetMs

def activeDatesForOffset (now offsetMs overlapMs : Int) : List Date :=
  let shifted := now - offsetMs
  let today := utcDateOf shifted
  today ::
    ((if msToNextUTCMidnight shifted ≤ overlapMs then [today + 1] else []) ++
      if msSincePrevUTCMidnight shifted < overlapMs then [today - 1] else [])

/-! ## The texts of dates -/

namespace Iso

open Calendar

def utcDateOf (ts : Time) : List Char := isoDate (ts / DAY)

/-- None for a text that `Date.parse` does not read. -/
def addUTCDays (date : List Char) (days : Int) : Option (List Char) := (readDate date).map fun d => isoDate (d + days)

/-- The midnight `n` days after the one before `ts`: `Date.UTC` of its year, month and date, `n` added to the last. -/
def midnight (ts : Time) (n : Int) : Time :=
  let d := ts / DAY
  makeDay (yearFromDay d) (month d) (date d + n) * DAY

def msToNextUTCMidnight (ts : Time) : Int := midnight ts 1 - ts

def msSincePrevUTCMidnight (ts : Time) : Int := ts - midnight ts 0

def rendezvousDay (now offsetMs : Int) : List Char := utcDateOf (now - offsetMs)

def nextRotationAfter (now offsetMs : Int) : Time := midnight (now - offsetMs) 1 + offsetMs

def activeDatesForOffset (now offsetMs overlapMs : Int) : Option (List (List Char)) := do
  let shifted := now - offsetMs
  let today := utcDateOf shifted
  let next ← if msToNextUTCMidnight shifted ≤ overlapMs then (addUTCDays today 1).map ([·]) else some []
  let prev ← if msSincePrevUTCMidnight shifted < overlapMs then (addUTCDays today (-1)).map ([·]) else some []
  return today :: (next ++ prev)

@[simp] theorem midnight_eq (ts : Time) (n : Int) : midnight ts n = (ts / DAY + n) * DAY := by
  rw [midnight, makeDay_add]

theorem msToNextUTCMidnight_eq (ts : Time) : msToNextUTCMidnight ts = Presence.msToNextUTCMidnight ts := by
  rw [msToNextUTCMidnight, Presence.msToNextUTCMidnight, midnight_eq, DAY]
  omega

theorem msSincePrevUTCMidnight_eq (ts : Time) : msSincePrevUTCMidnight ts = Presence.msSincePrevUTCMidnight ts := by
  rw [msSincePrevUTCMidnight, Presence.msSincePrevUTCMidnight, midnight_eq, DAY]
  omega

theorem nextRotationAfter_eq (now offsetMs : Int) :
    nextRotationAfter now offsetMs = Presence.nextRotationAfter now offsetMs := by
  rw [nextRotationAfter, Presence.nextRotationAfter, midnight_eq, Presence.utcDateOf]

theorem addUTCDays_isoDate {d : Date} (h : FourDigits d) (n : Int) :
    addUTCDays (isoDate d) n = some (isoDate (d + n)) := by
  rw [addUTCDays, readDate_isoDate h, Option.map_some]

/-- Where years have four digits the texts are those of the days. -/
theorem activeDatesForOffset_eq {now offsetMs : Int} (overlapMs : Int)
    (h : FourDigits (Presence.utcDateOf (now - offsetMs))) :
    activeDatesForOffset now offsetMs overlapMs =
      some ((Presence.activeDatesForOffset now offsetMs overlapMs).map isoDate) := by
  have hday : utcDateOf (now - offsetMs) = isoDate (Presence.utcDateOf (now - offsetMs)) := rfl
  simp only [activeDatesForOffset, Presence.activeDatesForOffset, hday, addUTCDays_isoDate h,
    msToNextUTCMidnight_eq, msSincePrevUTCMidnight_eq, ← sub_eq_add_neg]
  split <;> split <;> rfl

/-- Different days have different texts. -/
theorem isoDate_inj {d d' : Date} (h : FourDigits d) (h' : FourDigits d') (heq : isoDate d = isoDate d') : d = d' := by
  have hread := readDate_isoDate h
  rw [heq, readDate_isoDate h'] at hread
  exact (Option.some.inj hread).symm

end Iso

/-! ## The overlap -/

theorem mem_activeDatesForOffset {now offsetMs overlapMs : Int} {d : Date} :
    d ∈ activeDatesForOffset now offsetMs overlapMs ↔
      d = rendezvousDay now offsetMs ∨
        (d = rendezvousDay now offsetMs + 1 ∧ msToNextUTCMidnight (now - offsetMs) ≤ overlapMs) ∨
          (d = rendezvousDay now offsetMs - 1 ∧ msSincePrevUTCMidnight (now - offsetMs) < overlapMs) := by
  simp only [activeDatesForOffset, rendezvousDay, List.mem_cons, List.mem_append, List.mem_ite_nil_right,
    List.not_mem_nil, or_false, and_comm]

/-- The day of a clock that differs by no more than the guard is active. -/
theorem rendezvousDay_mem {a b offsetMs overlapMs : Int} (hskew : |a - b| ≤ overlapMs) (hguard : overlapMs ≤ DAY) :
    rendezvousDay b offsetMs ∈ activeDatesForOffset a offsetMs overlapMs := by
  obtain ⟨hlow, hhigh⟩ := abs_le.mp hskew
  rw [mem_activeDatesForOffset]
  simp only [rendezvousDay, utcDateOf, msToNextUTCMidnight, msSincePrevUTCMidnight, DAY, Date, Time] at hguard ⊢
  omega

theorem rendezvousDay_lt_iff {now t offsetMs : Int} :
    rendezvousDay now offsetMs < rendezvousDay t offsetMs ↔ nextRotationAfter now offsetMs ≤ t := by
  simp only [rendezvousDay, nextRotationAfter, utcDateOf, DAY, Date, Time]
  omega

theorem lt_nextRotationAfter (now offsetMs : Int) : now < nextRotationAfter now offsetMs := by
  simp only [nextRotationAfter, utcDateOf, DAY, Date, Time]
  omega

theorem rendezvousDay_mono {now t : Int} (offsetMs : Int) (h : now ≤ t) :
    rendezvousDay now offsetMs ≤ rendezvousDay t offsetMs := by
  simp only [rendezvousDay, utcDateOf, DAY, Date, Time]
  omega

theorem nextRotationAfter_isLeast (now offsetMs : Int) :
    IsLeast {t | now < t ∧ rendezvousDay t offsetMs ≠ rendezvousDay now offsetMs} (nextRotationAfter now offsetMs) := by
  constructor
  · exact ⟨lt_nextRotationAfter now offsetMs, (rendezvousDay_lt_iff.mpr le_rfl).ne'⟩
  · rintro t ⟨hlt, hne⟩
    exact rendezvousDay_lt_iff.mp (lt_of_le_of_ne (rendezvousDay_mono offsetMs hlt.le) hne.symm)

/-- Two clocks that differ by no more than the guard have an active day in common, and each the other's. The first
active day is the one that is current, and it is until the next rotation. -/
theorem rotation_overlap :
    (∀ a b offsetMs overlapMs : Int, |a - b| ≤ overlapMs → overlapMs ≤ DAY →
      (∃ d, d ∈ activeDatesForOffset a offsetMs overlapMs ∧ d ∈ activeDatesForOffset b offsetMs overlapMs) ∧
        rendezvousDay a offsetMs ∈ activeDatesForOffset b offsetMs overlapMs ∧
        rendezvousDay b offsetMs ∈ activeDatesForOffset a offsetMs overlapMs) ∧
      (∀ now offsetMs overlapMs : Int,
        (activeDatesForOffset now offsetMs overlapMs).head? = some (rendezvousDay now offsetMs)) ∧
      ∀ now offsetMs : Int, IsLeast {t | now < t ∧ rendezvousDay t offsetMs ≠ rendezvousDay now offsetMs}
        (nextRotationAfter now offsetMs) := by
  refine ⟨fun a b offsetMs overlapMs hskew hguard => ?_, fun now offsetMs overlapMs => rfl, nextRotationAfter_isLeast⟩
  have hb : rendezvousDay b offsetMs ∈ activeDatesForOffset a offsetMs overlapMs := rendezvousDay_mem hskew hguard
  have ha : rendezvousDay a offsetMs ∈ activeDatesForOffset b offsetMs overlapMs :=
    rendezvousDay_mem (by rwa [abs_sub_comm]) hguard
  exact ⟨⟨rendezvousDay b offsetMs, hb, mem_activeDatesForOffset.mpr (.inl rfl)⟩, ha, hb⟩

/-- A minute before and a minute after a rotation at half past one. -/
theorem rotation_overlap_sample :
    ∃ d, d ∈ activeDatesForOffset (DAY + 5340000) 5400000 OVERLAP_MS ∧
      d ∈ activeDatesForOffset (DAY + 5460000) 5400000 OVERLAP_MS :=
  (rotation_overlap.1 (DAY + 5340000) (DAY + 5460000) 5400000 OVERLAP_MS (by decide) (by decide)).1

end EncedoChat.Presence
