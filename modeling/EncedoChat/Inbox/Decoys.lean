import EncedoChat.Lib.Bytes
import EncedoChat.Presence.Rotation
import Mathlib.Tactic.Linarith
import EncedoChat.Lib.Run

/-!
# The watch of an inbox

The passes of `watchInbox` of `lib/inbox.ts`: the day-topics it is subscribed to, and the schedule of the decoys. A
day-topic is named by its day. A pass reads the clock when it begins and again before each decoy; the awaits between are
what time it takes. What the watch does on the network is kept, with the time.
-/

namespace EncedoChat.Inbox

open Presence (Time Date activeDatesForOffset)

structure Config where
  /-- `rotationOffsetSec(inbox, params) * 1000` -/
  offsetMs : Int
  overlapMs : Int
  tickMs : Int
  decoyEveryMs : Int
  pos : 0 < decoyEveryMs
  /-- `kdf(SLOT_LABEL, seed, ctx, 4)` -/
  slotHash : Bytes → Bytes

inductive Kind where
  | subscribed
  | frame
  | unsubscribed
  deriving DecidableEq

structure Entry where
  kind : Kind
  date : Date
  time : Time
  deriving DecidableEq

structure Watch where
  /-- `topics`, by its dates -/
  topics : List Date
  curSlot : Int
  fireAt : Time
  fired : Bool
  stopped : Bool
  /-- when the last pass began -/
  ran : Option Time
  /-- the last reading of the clock -/
  now : Time
  log : List Entry

inductive Event where
  /-- a pass that begins at `t`, subscribes at `s` and publishes at `u₁` and `u₂` -/
  | pass (t s u₁ u₂ : Time)
  /-- `decoy()` -/
  | decoy (u : Time)
  | stop (u : Time)

namespace Config

variable (C : Config)

def dates (now : Time) : List Date := activeDatesForOffset now C.offsetMs C.overlapMs

def slotOf (t : Time) : Int := t / C.decoyEveryMs

end Config

namespace Watch

variable (C : Config) (w : Watch)

def start : Watch := ⟨[], -1, 0, false, false, none, 0, []⟩

/-- On the day that is current when it is published, and nowhere else. -/
def publishDecoy (u : Time) : Watch :=
  match (C.dates u).head? with
  | none => w
  | some d =>
    if w.stopped = false ∧ d ∈ w.topics then { w with now := u, log := w.log ++ [⟨.frame, d, u⟩] } else { w with now := u }

def planSlot (n : Int) : Watch :=
  { w with
    curSlot := n
    fireAt := n * C.decoyEveryMs + Bytes.toNat (C.slotHash (Bytes.u32be n.toNat)) % C.decoyEveryMs
    fired := false }

/-- The topics of a pass. -/
def rotate (t s : Time) : Watch :=
  let want := C.dates t
  let come := want.filter fun d => d ∉ w.topics
  let gone := w.topics.filter fun d => d ∉ want
  { w with
    topics := (w.topics ++ come).filter fun d => d ∈ want
    ran := some t
    now := s
    log := w.log ++ come.map (⟨.subscribed, ·, s⟩) ++ gone.map (⟨.unsubscribed, ·, s⟩) }

/-- A slot whose instant fell between two passes is still to be paid. -/
def overdue (t : Time) : Bool := C.slotOf t ≠ w.curSlot && decide (0 ≤ w.curSlot) && !w.fired

/-- The slot of a pass. -/
def enterSlot (t u : Time) : Watch :=
  if C.slotOf t ≠ w.curSlot then
    if w.overdue C t then (w.planSlot C (C.slotOf t)).publishDecoy C u else w.planSlot C (C.slotOf t)
  else w

def due (t : Time) : Bool := !w.fired && decide (w.fireAt ≤ t)

def fire (t u : Time) : Watch := if w.due t then { w with fired := true }.publishDecoy C u else w

def pass (t s u₁ u₂ : Time) : Watch :=
  if w.stopped then w else (((w.rotate C t s).enterSlot C t u₁).fire C t u₂)

def stop (u : Time) : Watch :=
  { w with stopped := true, topics := [], now := u, log := w.log ++ w.topics.map (⟨.unsubscribed, ·, u⟩) }

def act : Event → Watch
  | .pass t s u₁ u₂ => w.pass C t s u₁ u₂
  | .decoy u => w.publishDecoy C u
  | .stop u => w.stop u

end Watch

end EncedoChat.Inbox

/-!
# The decoy as keepalive

Passes that are through within a tick of the one before pay a decoy in time, and what is paid goes to the current day.
So a topic is kept alive from its subscription on as long as no decoy is paid before its day.
-/

namespace EncedoChat.Inbox

open Presence (Time Date utcDateOf)

/-- When a topic was subscribed to or published on last, while it is subscribed to. -/
def lastOf (log : List Entry) (d : Date) : Option Time :=
  log.foldl (fun o e => if e.date = d then if e.kind = .unsubscribed then none else some e.time else o) none

/-- A frame follows the subscription, or the frame before it, within the time given. -/
def Kept (gap : Int) (log : List Entry) : Prop :=
  ∀ a e b, log = a ++ e :: b → e.kind = .frame → ∀ s ∈ lastOf a e.date, e.time - s ≤ gap

theorem lastOf_snoc (log : List Entry) (e : Entry) (d : Date) : lastOf (log ++ [e]) d =
    if e.date = d then if e.kind = .unsubscribed then none else some e.time else lastOf log d := by
  rw [lastOf, List.foldl_append]
  rfl

theorem Kept.snoc {gap : Int} {log : List Entry} (h : Kept gap log) {e : Entry}
    (he : e.kind = .frame → ∀ s ∈ lastOf log e.date, e.time - s ≤ gap) : Kept gap (log ++ [e]) := by
  intro a f b hlog hf
  obtain rfl | ⟨b', x, rfl⟩ := List.eq_nil_or_concat b
  · obtain ⟨rfl, hef⟩ := List.append_inj' hlog rfl
    obtain rfl := List.singleton_injective hef
    exact he hf
  · rw [List.concat_eq_append, ← List.cons_append, ← List.append_assoc] at hlog
    exact h a f b' (List.append_inj' hlog rfl).1 hf

/-- Subscribing is no frame, nor is unsubscribing. -/
theorem Kept.append {gap : Int} {log : List Entry} (h : Kept gap log) {es : List Entry} (hes : ∀ e ∈ es, e.kind ≠ .frame) :
    Kept gap (log ++ es) := by
  induction es generalizing log with
  | nil => rwa [List.append_nil]
  | cons e es ih =>
      rw [List.append_cons]
      exact ih (h.snoc fun he => absurd he (hes e List.mem_cons_self)) fun f hf => hes f (List.mem_cons_of_mem e hf)

theorem lastOf_subscribed (log : List Entry) (ds : List Date) (s : Time) (d : Date) :
    lastOf (log ++ ds.map (⟨.subscribed, ·, s⟩)) d = if d ∈ ds then some s else lastOf log d := by
  induction ds using List.reverseRecOn with
  | nil => simp
  | append_singleton ds d' ih =>
      rw [List.map_append, List.map_singleton, ← List.append_assoc, lastOf_snoc, ih]
      by_cases hd : d' = d
      · simp [hd]
      · simp [hd, Ne.symm hd]

theorem lastOf_unsubscribed (log : List Entry) (ds : List Date) (s : Time) (d : Date) :
    lastOf (log ++ ds.map (⟨.unsubscribed, ·, s⟩)) d = if d ∈ ds then none else lastOf log d := by
  induction ds using List.reverseRecOn with
  | nil => simp
  | append_singleton ds d' ih =>
      rw [List.map_append, List.map_singleton, ← List.append_assoc, lastOf_snoc, ih]
      by_cases hd : d' = d
      · simp [hd]
      · simp [hd, Ne.symm hd]

namespace Watch

variable (C : Config)

/-- The clock goes on, and each pass is through within a tick of the beginning of the one before. -/
def Timed (w : Watch) : Event → Prop
  | .pass t s u₁ u₂ => 0 ≤ t ∧ w.now ≤ t ∧ t ≤ s ∧ s ≤ u₁ ∧ u₁ ≤ u₂ ∧ u₂ ≤ w.ran.getD t + C.tickMs
  | .decoy u => w.now ≤ u ∧ ∃ t ∈ w.ran, u ≤ t + C.tickMs
  | .stop u => w.now ≤ u

/-- The current day has its topic, and no day to come has one. -/
def Clear (w : Watch) (u : Time) : Prop := ∃ d ∈ (C.dates u).head?, d ∈ w.topics ∧ ∀ d' ∈ w.topics, d' ≤ d

/-- No decoy is paid while the topic of a day to come is subscribed to, or the current day's is not. -/
def DecoyMeets (w : Watch) : Event → Prop
  | .pass t s u₁ u₂ => w.stopped = false →
    ((w.rotate C t s).overdue C t = true → (w.rotate C t s).Clear C u₁) ∧
      (((w.rotate C t s).enterSlot C t u₁).due t = true → (w.rotate C t s).Clear C u₂)
  | .decoy u => w.stopped = false → w.Clear C u
  | .stop _ => True

variable {C} {w : Watch}

/-! ## What is paid -/

/-- The topics are those that the log says, and the frames there have come in time. -/
structure Books (C : Config) (w : Watch) : Prop where
  kept : Kept (2 * C.decoyEveryMs + 2 * C.tickMs) w.log
  held : ∀ d, (lastOf w.log d).isSome = true ↔ d ∈ w.topics

/-- From `since` on, nothing has come on the topics of the day and of the days to come, and what is published until
`due` comes in time. -/
structure Fed (C : Config) (w : Watch) (since due : Time) : Prop extends Books C w where
  latest : ∀ d, (utcDateOf (w.now - C.offsetMs)) ≤ d → ∀ s ∈ lastOf w.log d, since ≤ s
  room : due ≤ since + (2 * C.decoyEveryMs + 2 * C.tickMs)

theorem day_le {t u : Time} (h : t ≤ u) : utcDateOf (t - C.offsetMs) ≤ utcDateOf (u - C.offsetMs) :=
  Int.ediv_le_ediv (by decide) (by linarith)

/-- A decoy is paid. -/
theorem Fed.publish {since due : Time} (h : Fed C w since due) {u : Time} (hclear : w.Clear C u)
    (hrunning : w.stopped = false) (hnow : w.now ≤ u) (hdue : u ≤ due) (hsince : since ≤ u) :
    Fed C (w.publishDecoy C u) u due := by
  obtain ⟨d, hd, hin, hlast⟩ := hclear
  have hday : utcDateOf (u - C.offsetMs) = d := Option.some.inj hd
  rw [publishDecoy, Option.mem_def.mp hd]
  dsimp only
  rw [if_pos ⟨hrunning, hin⟩]
  exact
    { kept := h.kept.snoc fun _ s hs => by
        have := h.latest d (hday ▸ day_le hnow) s hs
        have := h.room
        dsimp only
        linarith
      held := fun d' => by
        rw [lastOf_snoc, ← h.held]
        split
        · rename_i heq
          have hheld := (h.held d).mpr hin
          simp [← heq, hheld]
        · exact Iff.rfl
      latest := fun d' hd' s hs => by
        rw [lastOf_snoc] at hs
        split at hs
        · exact (Option.some.inj hs).le
        · rename_i hne
          have hheld : d' ∈ w.topics := (h.held d').mp (Option.isSome_iff_exists.mpr ⟨s, hs⟩)
          exact absurd (le_antisymm (hday ▸ hd') (hlast d' hheld)) hne
      room := by
        have := h.room
        linarith }

/-- The topics are brought up to date. -/
theorem Fed.rotate {since due : Time} (h : Fed C w since due) {t s : Time} (ht : w.now ≤ t) (hs : t ≤ s)
    (hsince : since ≤ s) : Fed C (w.rotate C t s) since due := by
  have hlast : ∀ d, lastOf (w.rotate C t s).log d =
      if d ∈ C.dates t then if d ∈ w.topics then lastOf w.log d else some s else none := by
    intro d
    rw [Watch.rotate]
    dsimp only
    rw [lastOf_unsubscribed, lastOf_subscribed]
    by_cases hd : d ∈ C.dates t
    · by_cases hheld : d ∈ w.topics <;> simp [hd, hheld]
    · have hnone : d ∉ w.topics → lastOf w.log d = none := fun hnot =>
        Option.not_isSome_iff_eq_none.mp fun hsome => hnot ((h.held d).mp hsome)
      by_cases hheld : d ∈ w.topics
      · simp [hd, hheld]
      · simp [hd, hheld, hnone hheld]
  exact
    { kept := (h.kept.append fun e he => by
          obtain ⟨d, -, rfl⟩ := List.mem_map.mp he
          exact Kind.noConfusion).append fun e he => by
        obtain ⟨d, -, rfl⟩ := List.mem_map.mp he
        exact Kind.noConfusion
      held := fun d => by
        rw [hlast, Watch.rotate]
        by_cases hd : d ∈ C.dates t
        · by_cases hheld : d ∈ w.topics
          · simp [hd, hheld, (h.held d).mpr hheld]
          · simp [hd, hheld]
        · simp [hd]
      latest := fun d hd u hu => by
        rw [hlast] at hu
        split at hu
        · split at hu
          · exact h.latest d ((day_le (ht.trans hs)).trans hd) u hu
          · exact (Option.some.inj hu) ▸ hsince
        · cases hu
      room := h.room }

/-! ## The schedule -/

/-- When the next decoy is paid at the latest, for a pass that begins after `t`. -/
structure Sched (C : Config) (w : Watch) (since t : Time) : Prop where
  slot : w.curSlot = C.slotOf t
  nonneg : 0 ≤ w.curSlot
  paid : w.fired = true → w.curSlot * C.decoyEveryMs ≤ since
  unpaid : w.fired = false → w.fireAt < (w.curSlot + 1) * C.decoyEveryMs ∧ t < w.fireAt ∧
    (w.curSlot - 1) * C.decoyEveryMs - C.tickMs ≤ since

theorem slotOf_le (C : Config) (t : Time) : C.slotOf t * C.decoyEveryMs ≤ t := Int.ediv_mul_le t C.pos.ne'

theorem lt_slotOf (C : Config) (t : Time) : t < (C.slotOf t + 1) * C.decoyEveryMs :=
  Int.lt_ediv_add_one_mul_self t C.pos

/-- Until a tick after the last pass, a decoy comes in time. -/
theorem Sched.soon {since t : Time} (h : Sched C w since t) (htick : 0 ≤ C.tickMs) :
    t + C.tickMs ≤ since + (2 * C.decoyEveryMs + 2 * C.tickMs) := by
  have hpos := C.pos
  cases hfired : w.fired with
  | true =>
      have hpaid := h.paid hfired
      have hlt := lt_slotOf C t
      rw [← h.slot, add_mul, one_mul] at hlt
      linarith
  | false =>
      obtain ⟨hfire, hlt, hsince⟩ := h.unpaid hfired
      rw [add_mul, one_mul] at hfire
      rw [sub_mul, one_mul] at hsince
      linarith

theorem publishDecoy_same (C : Config) (w : Watch) (u : Time) : (w.publishDecoy C u).topics = w.topics ∧
    (w.publishDecoy C u).curSlot = w.curSlot ∧ (w.publishDecoy C u).fireAt = w.fireAt ∧
    (w.publishDecoy C u).fired = w.fired ∧ (w.publishDecoy C u).stopped = w.stopped ∧
    (w.publishDecoy C u).ran = w.ran ∧ (w.publishDecoy C u).now = u := by
  have hhead : (C.dates u).head? = some (utcDateOf (u - C.offsetMs)) := rfl
  rw [publishDecoy, hhead]
  dsimp only
  split <;> exact ⟨rfl, rfl, rfl, rfl, rfl, rfl, rfl⟩

/-- A decoy of the slot that a pass is in: paid in it, or planned for it. -/
structure Planned (C : Config) (w : Watch) (since : Time) : Prop where
  paid : w.fired = true → w.curSlot * C.decoyEveryMs ≤ since
  unpaid : w.fired = false → w.fireAt < (w.curSlot + 1) * C.decoyEveryMs ∧
    (w.curSlot - 1) * C.decoyEveryMs - C.tickMs ≤ since

theorem planned_planSlot {since : Time} {n : Int} (h : (n - 1) * C.decoyEveryMs - C.tickMs ≤ since) :
    Planned C (w.planSlot C n) since where
  paid hfired := by cases hfired
  unpaid _ := by
    refine ⟨?_, h⟩
    have hlt := Int.emod_lt_of_pos (Bytes.toNat (C.slotHash (Bytes.u32be n.toNat)) : Int) C.pos
    rw [planSlot]
    dsimp only
    rw [add_mul, one_mul]
    exact Int.add_lt_add_left hlt _

theorem Fed.planSlot {since due : Time} (h : Fed C w since due) (n : Int) : Fed C (w.planSlot C n) since due :=
  { h with }

/-- A pass comes to its slot; what is overdue is paid. -/
theorem Fed.enterSlot {since due : Time} (h : Fed C w since due) {t u : Time} (hrunning : w.stopped = false)
    (hsince : since ≤ w.now) (ht : t ≤ w.now) (hu : w.now ≤ u) (hdue : u ≤ due) (htick : 0 ≤ C.tickMs)
    (hclear : w.overdue C t = true → w.Clear C u)
    (hsame : C.slotOf t = w.curSlot → Planned C w since)
    (hnew : C.slotOf t ≠ w.curSlot → w.overdue C t = false → (C.slotOf t - 1) * C.decoyEveryMs - C.tickMs ≤ since) :
    ∃ since', Fed C (w.enterSlot C t u) since' due ∧ Planned C (w.enterSlot C t u) since' ∧
      (w.enterSlot C t u).curSlot = C.slotOf t ∧ (w.enterSlot C t u).topics = w.topics ∧
      (w.enterSlot C t u).stopped = false ∧ (w.enterSlot C t u).ran = w.ran ∧
      since' ≤ (w.enterSlot C t u).now ∧ t ≤ (w.enterSlot C t u).now ∧ (w.enterSlot C t u).now ≤ u := by
  rw [Watch.enterSlot]
  split
  · rename_i hslot
    split
    · rename_i hover
      have hbegun : (C.slotOf t - 1) * C.decoyEveryMs - C.tickMs ≤ u := by
        have := slotOf_le C t
        have := C.pos
        rw [sub_mul, one_mul]
        linarith
      obtain ⟨htopics, hcur, hfire, hfired, hstopped, hran, hnow⟩ :=
        publishDecoy_same C (w.planSlot C (C.slotOf t)) u
      have hplanned := planned_planSlot (w := w) hbegun
      refine ⟨u, (h.planSlot _).publish (hclear hover) hrunning hu hdue (hsince.trans hu), ⟨fun h' => ?_, fun h' => ?_⟩,
        hcur, htopics, hstopped.trans hrunning, hran, hnow.ge, ?_, hnow.le⟩
      · rw [hcur]
        exact hplanned.paid (hfired.symm.trans h')
      · rw [hcur, hfire]
        exact hplanned.unpaid (hfired.symm.trans h')
      · rw [hnow]
        exact ht.trans hu
    · rename_i hover
      exact ⟨since, h.planSlot _, planned_planSlot (hnew hslot (Bool.eq_false_of_not_eq_true hover)), rfl, rfl, hrunning,
        rfl, hsince, ht, hu⟩
  · rename_i hslot
    have hslot := not_ne_iff.mp hslot
    exact ⟨since, h, hsame hslot, hslot.symm, rfl, hrunning, rfl, hsince, ht, hu⟩

/-- And what is due. -/
theorem Fed.fire {since due : Time} (h : Fed C w since due) {t u : Time} (hplanned : Planned C w since)
    (hcur : w.curSlot = C.slotOf t) (hzero : 0 ≤ t) (hrunning : w.stopped = false) (hsince : since ≤ w.now)
    (ht : t ≤ w.now) (hu : w.now ≤ u) (hdue : u ≤ due) (hclear : w.due t = true → w.Clear C u) :
    ∃ since', Fed C (w.fire C t u) since' due ∧ Sched C (w.fire C t u) since' t ∧ since' ≤ (w.fire C t u).now ∧
      t ≤ (w.fire C t u).now ∧ (w.fire C t u).ran = w.ran := by
  have hnonneg : 0 ≤ w.curSlot := hcur ▸ Int.ediv_nonneg hzero C.pos.le
  rw [Watch.fire]
  split
  · rename_i hpay
    obtain ⟨-, hcur', -, hfired', -, hran', hnow'⟩ := publishDecoy_same C { w with fired := true } u
    have hfed : Fed C { w with fired := true } since due := { h with }
    refine ⟨u, hfed.publish (hclear hpay) hrunning hu hdue (hsince.trans hu), ?_, hnow'.ge, ?_, hran'⟩
    · exact
        { slot := hcur'.trans hcur
          nonneg := by
            rw [hcur']
            exact hnonneg
          paid := fun _ => by
            rw [hcur']
            exact (hcur ▸ slotOf_le C t).trans (ht.trans hu)
          unpaid := fun h' => by cases h'.symm.trans hfired' }
    · rw [hnow']
      exact ht.trans hu
  · rename_i hpay
    refine ⟨since, h, ⟨hcur, hnonneg, hplanned.paid, fun hfired => ?_⟩, hsince, ht, rfl⟩
    obtain ⟨hfire, hle⟩ := hplanned.unpaid hfired
    refine ⟨hfire, ?_, hle⟩
    by_contra hlate
    exact hpay (by simp [Watch.due, hfired, not_lt.mp hlate])

/-! ## The watch -/

/-- The invariant of the watch. -/
structure Paid (C : Config) (w : Watch) : Prop extends Books C w where
  fresh : w.stopped = false → w.ran = none → w.log = [] ∧ w.curSlot = -1 ∧ w.fired = false
  fed : w.stopped = false → ∀ t ∈ w.ran, t ≤ w.now ∧
    ∃ since, since ≤ w.now ∧ Fed C w since (t + C.tickMs) ∧ Sched C w since t

theorem Paid.start : Paid C start where
  kept a e b h := by simp [Watch.start] at h
  held d := by simp [Watch.start, lastOf]
  fresh _ _ := ⟨rfl, rfl, rfl⟩
  fed _ t h := by cases h

theorem Paid.pass (h : Paid C w) {t s u₁ u₂ : Time} (htime : w.Timed C (.pass t s u₁ u₂))
    (hclear : w.DecoyMeets C (.pass t s u₁ u₂)) : Paid C (w.pass C t s u₁ u₂) := by
  obtain ⟨hzero, hnow, hs, hu₁, hu₂, hlast⟩ := htime
  rw [Watch.pass]
  split
  · exact h
  · rename_i hstopped
    have hrunning : w.stopped = false := Bool.eq_false_of_not_eq_true hstopped
    obtain ⟨hover, hdue⟩ := hclear hrunning
    have htick : 0 ≤ C.tickMs := by
      cases hran : w.ran with
      | none =>
          rw [hran, Option.getD_none] at hlast
          linarith
      | some t₀ =>
          obtain ⟨hle, -⟩ := h.fed hrunning t₀ hran
          rw [hran, Option.getD_some] at hlast
          linarith
    -- where the schedule stands when the pass begins
    obtain ⟨since, hsince, hfed, hsame, hnew⟩ : ∃ since, since ≤ t ∧ Fed C w since (w.ran.getD t + C.tickMs) ∧
        (C.slotOf t = w.curSlot → Planned C w since) ∧
        (C.slotOf t ≠ w.curSlot → w.overdue C t = false → (C.slotOf t - 1) * C.decoyEveryMs - C.tickMs ≤ since) := by
      have hbegun := slotOf_le C t
      have hpos := C.pos
      cases hran : w.ran with
      | none =>
          obtain ⟨hlog, hcur, -⟩ := h.fresh hrunning hran
          refine ⟨t, le_rfl, { h.toBooks with latest := fun d _ u hu => ?_, room := ?_ }, fun heq => ?_, fun _ _ => ?_⟩
          · rw [hlog] at hu
            cases hu
          · rw [Option.getD_none]
            linarith
          · have hslot : 0 ≤ C.slotOf t := Int.ediv_nonneg hzero C.pos.le
            rw [heq, hcur] at hslot
            exact absurd hslot (by decide)
          · rw [sub_mul, one_mul]
            linarith
      | some t₀ =>
          obtain ⟨-, since, hle, hfed, hsched⟩ := h.fed hrunning t₀ hran
          rw [hran, Option.getD_some] at hlast
          refine ⟨since, hle.trans hnow, hfed, fun _ => ⟨hsched.paid, fun hfired => ?_⟩, fun hslot hover => ?_⟩
          · obtain ⟨hfire, -, hsince⟩ := hsched.unpaid hfired
            exact ⟨hfire, hsince⟩
          · have hfired : w.fired = true := by
              have hne : (C.slotOf t ≠ w.curSlot && decide (0 ≤ w.curSlot)) = true := by simp [hslot, hsched.nonneg]
              rw [overdue, hne, Bool.true_and, Bool.not_eq_false'] at hover
              exact hover
            have hpaid := hsched.paid hfired
            have hlt := lt_slotOf C t₀
            rw [← hsched.slot, add_mul, one_mul] at hlt
            rw [sub_mul, one_mul]
            linarith
    have hrot := hfed.rotate hnow hs (hsince.trans hs)
    obtain ⟨since₁, hfed₁, hplanned, hcur, htopics, hrun₁, hran₁, hsince₁, ht₁, hle₁⟩ := hrot.enterSlot (u := u₁) hrunning
      (hsince.trans hs) hs hu₁ (hu₂.trans hlast) htick hover (fun heq => ⟨(hsame heq).paid, (hsame heq).unpaid⟩) hnew
    obtain ⟨since₂, hfed₂, hsched, hsince₂, ht₂, hran₂⟩ := hfed₁.fire hplanned hcur hzero hrun₁ hsince₁ ht₁
      (hle₁.trans hu₂) hlast fun hpay => by
        obtain ⟨d, hd, hin, hall⟩ := hdue hpay
        exact ⟨d, hd, htopics.symm ▸ hin, htopics.symm ▸ hall⟩
    have hran : (((w.rotate C t s).enterSlot C t u₁).fire C t u₂).ran = some t := hran₂.trans hran₁
    exact
      { toBooks := hfed₂.toBooks
        fresh := fun _ hnone => by cases hnone.symm.trans hran
        fed := fun _ t' ht' => by
          obtain rfl : t' = t := Option.some.inj (ht'.symm.trans hran)
          exact ⟨ht₂, since₂, hsince₂, { hfed₂ with room := hsched.soon htick }, hsched⟩ }

theorem Paid.decoy (h : Paid C w) {u : Time} (htime : w.Timed C (.decoy u)) (hclear : w.DecoyMeets C (.decoy u)) :
    Paid C (w.publishDecoy C u) := by
  obtain ⟨hnow, t, ht, hu⟩ := htime
  obtain ⟨-, hcur, hfire, hfired, hstopped, hran, hnow'⟩ := publishDecoy_same C w u
  cases hrunning : w.stopped with
  | true =>
      have heq : w.publishDecoy C u = { w with now := u } := by
        have hhead : (C.dates u).head? = some (utcDateOf (u - C.offsetMs)) := rfl
        rw [publishDecoy, hhead]
        exact if_neg fun hrun => by cases hrunning.symm.trans hrun.1
      rw [heq]
      exact
        { h with
          fresh := fun h' => by cases hrunning.symm.trans h'
          fed := fun h' => by cases hrunning.symm.trans h' }
  | false =>
      obtain ⟨hle, since, hsince, hfed, hsched⟩ := h.fed hrunning t ht
      have hpub := hfed.publish (hclear hrunning) hrunning hnow hu (hsince.trans hnow)
      exact
        { toBooks := hpub.toBooks
          fresh := fun _ hnone => by cases (hran.symm.trans hnone).symm.trans ht
          fed := fun _ t' ht' => by
            obtain rfl : t' = t := Option.some.inj ((hran.symm.trans ht').symm.trans ht)
            refine ⟨hnow'.symm ▸ hle.trans hnow, u, hnow'.ge, hpub, ?_⟩
            exact
              { slot := hcur.trans hsched.slot
                nonneg := hcur ▸ hsched.nonneg
                paid := fun h' => by
                  rw [hcur]
                  exact (hsched.paid (hfired.symm.trans h')).trans (hsince.trans hnow)
                unpaid := fun h' => by
                  obtain ⟨h₁, h₂, h₃⟩ := hsched.unpaid (hfired.symm.trans h')
                  rw [hcur, hfire]
                  exact ⟨h₁, h₂, h₃.trans (hsince.trans hnow)⟩ } }

theorem Paid.stop (h : Paid C w) (u : Time) : Paid C (w.stop u) where
  kept := h.kept.append fun e he => by
    obtain ⟨d, -, rfl⟩ := List.mem_map.mp he
    exact Kind.noConfusion
  held d := by
    rw [Watch.stop]
    dsimp only
    rw [lastOf_unsubscribed]
    split
    · simp
    · rename_i hnot
      simp [mt (h.held d).mp hnot]
  fresh hrun := by cases hrun
  fed hrun := by cases hrun

theorem Paid.act (h : Paid C w) {e : Event} (htime : w.Timed C e) (hclear : w.DecoyMeets C e) : Paid C (w.act C e) := by
  cases e with
  | pass t s u₁ u₂ => exact h.pass htime hclear
  | decoy u => exact h.decoy htime hclear
  | stop u => exact h.stop u

/-- In a run whose passes come at least once per tick and that pays no decoy while the topic of a day to come is
subscribed to, no topic waits longer for a frame than two slots and two ticks. -/
theorem kept_alive (h : Reach (act C) (fun w e => w.Timed C e ∧ w.DecoyMeets C e) start w) :
    Kept (2 * C.decoyEveryMs + 2 * C.tickMs) w.log :=
  (h.invariant .start fun _ _ hs hok => hs.act hok.1 hok.2 : Paid C w).kept

/-- Decoys every 45 s, passes every 45 s. -/
def sampleConfig (overlapMs : Int) : Config where
  offsetMs := 0
  overlapMs := overlapMs
  tickMs := 45000
  decoyEveryMs := 45000
  pos := by decide
  slotHash _ := [0, 0, 0, 7]

/-- Passes that take no time, from `k` ticks before the second midnight on. -/
def passes (k n : Nat) : List Event :=
  (List.range n).map fun i =>
    let t : Time := 86400000 - 45000 * k + 45000 * i
    .pass t t t t

instance (w : Watch) (e : Event) : Decidable (w.Timed C e) := by
  cases e <;> unfold Timed <;> infer_instance

instance (w : Watch) (u : Time) : Decidable (w.Clear C u) := by
  unfold Clear
  infer_instance

instance (w : Watch) (e : Event) : Decidable (w.DecoyMeets C e) := by
  cases e <;> unfold DecoyMeets <;> infer_instance

/-- Across a rotation, with no guard around it. -/
theorem sample_kept : Kept 180000 ((passes 3 8).foldl (act (sampleConfig 0)) start).log :=
  kept_alive (C := sampleConfig 0) (Admits.reach .start (by decide :
    Admits (act (sampleConfig 0)) (fun w e => w.Timed (sampleConfig 0) e ∧ w.DecoyMeets (sampleConfig 0) e) start (passes 3 8)))

/-- From before the guard of the rotation to past it, with the default half hour. -/
def guarded : Watch := (passes 41 43).foldl (act (sampleConfig 1800000)) start

/-- The topic of the next day waits half an hour for its first frame. -/
theorem waits_for_its_day : Reach (act (sampleConfig 1800000)) (fun w e => w.Timed (sampleConfig 1800000) e) start guarded ∧
    ¬ Kept 180000 guarded.log := by
  refine ⟨Admits.reach .start (by decide), fun hkept => ?_⟩
  have hsplit : guarded.log = guarded.log.take 42 ++ ⟨.frame, 1, 86400000⟩ :: guarded.log.drop 43 := by decide +kernel
  have hlast : lastOf (guarded.log.take 42) 1 = some 84600000 := by decide +kernel
  have hgap := hkept _ _ _ hsplit rfl _ hlast
  exact absurd hgap (by decide)

end Watch

end EncedoChat.Inbox
