import Mathlib.Algebra.Order.Field.Rat
import Mathlib.Data.Rat.Floor
import Mathlib.Tactic.Linarith
import Mathlib.Tactic.Ring

/-!
# One wake for each instant of the grid

`radiophase.ts`: a timer that arms itself for the next instant `radioPhase + k * period`, re-armed by every change of
profile. Clock readings and what the platform waits are whole milliseconds; the phase and the period need not be.
-/

namespace EncedoChat.Radio

inductive Profile where
  | active
  | background
  deriving DecidableEq

def RADIO_TICK_MS : ℚ := 15000

/-- What `alignedTimer` closes over. -/
structure Timer where
  radioPhase : ℚ
  periodMs : ℚ
  slowable : Bool
  phase_nonneg : 0 ≤ radioPhase
  phase_lt : radioPhase < RADIO_TICK_MS
  period_pos : 0 < periodMs

def Timer.period (c : Timer) (profile : Profile) : ℚ :=
  if c.slowable && profile == .background then c.periodMs * 4 else c.periodMs

theorem Timer.period_pos' (c : Timer) (profile : Profile) : 0 < c.period profile := by
  have h := c.period_pos
  unfold Timer.period
  split <;> linarith

/-! ## The delay -/

def trunc (q : ℚ) : ℤ := if 0 ≤ q then ⌊q⌋ else ⌈q⌉

/-- `x % p` -/
def rem (x p : ℚ) : ℚ := x - p * trunc (x / p)

def Timer.into (c : Timer) (p : ℚ) (now : ℤ) : ℚ := rem (rem (now - c.radioPhase) p + p) p

/-- `p - into || p` -/
def Timer.delay (c : Timer) (p : ℚ) (now : ℤ) : ℚ :=
  if p - c.into p now = 0 then p else p - c.into p now

theorem rem_nonneg_eq {x p : ℚ} (hp : 0 < p) (hx : 0 ≤ x) : rem x p = x - p * ⌊x / p⌋ := by
  rw [rem, trunc, if_pos (div_nonneg hx hp.le)]

/-- The sign of the dividend is what `+ p` and the second `%` take away. -/
theorem rem_rem {x p : ℚ} (hp : 0 < p) : rem (rem x p + p) p = x - p * ⌊x / p⌋ := by
  obtain ⟨m, hm, hlow⟩ : ∃ m : ℤ, rem x p + p = x - p * m ∧ 0 ≤ x - p * m := by
    have hx : p * (x / p) = x := mul_div_cancel₀ x hp.ne'
    refine ⟨trunc (x / p) - 1, by rw [rem]; push_cast; ring, ?_⟩
    push_cast
    unfold trunc
    split
    · have h := mul_le_mul_of_nonneg_left (Int.floor_le (x / p)) hp.le
      linarith
    · have h := mul_le_mul_of_nonneg_left (Int.ceil_lt_add_one (x / p)).le hp.le
      linarith
  have hdiv : (x - p * m) / p = x / p - m := by
    rw [sub_div, mul_div_cancel_left₀ _ hp.ne']
  rw [hm, rem_nonneg_eq hp hlow, hdiv, Int.floor_sub_intCast]
  push_cast
  ring

/-- The next instant of the grid after `now`. -/
def Timer.next (c : Timer) (p : ℚ) (now : ℤ) : ℚ :=
  c.radioPhase + (⌊(now - c.radioPhase) / p⌋ + 1 : ℤ) * p

theorem Timer.lt_next (c : Timer) {p : ℚ} (hp : 0 < p) (now : ℤ) : (now : ℚ) < c.next p now := by
  have h := mul_lt_mul_of_pos_right (Int.lt_floor_add_one ((now - c.radioPhase) / p)) hp
  rw [div_mul_cancel₀ _ hp.ne'] at h
  simp only [Timer.next]
  push_cast
  linarith

/-- No instant of the grid lies between `now` and the next one. -/
theorem Timer.next_le (c : Timer) {p : ℚ} (hp : 0 < p) {now : ℤ} {k : ℤ} (h : (now : ℚ) < c.radioPhase + k * p) :
    c.next p now ≤ c.radioPhase + k * p := by
  have hk : ⌊(now - c.radioPhase) / p⌋ < k := Int.floor_lt.mpr (by rw [div_lt_iff₀ hp]; linarith)
  have hk' : ((⌊(now - c.radioPhase) / p⌋ + 1 : ℤ) : ℚ) ≤ k := by exact_mod_cast hk
  have := mul_le_mul_of_nonneg_right hk' hp.le
  simp only [Timer.next]
  linarith

theorem Timer.delay_eq (c : Timer) {p : ℚ} (hp : 0 < p) (now : ℤ) : now + c.delay p now = c.next p now := by
  have hinto : p - c.into p now = c.next p now - now := by
    rw [Timer.into, rem_rem hp, Timer.next]
    push_cast
    ring
  have hpos := c.lt_next hp now
  rw [Timer.delay, if_neg (by rw [hinto]; linarith), hinto]
  ring

/-! ## The timer -/

/-- A pending `setTimeout`. -/
structure Armed where
  since : ℤ
  delay : ℚ

/-- The first reading of the clock at which the platform, which drops the fraction of the delay, may fire. -/
def Armed.due (a : Armed) : ℤ := a.since + ⌊a.delay⌋

/-- The instant it is for. -/
def Armed.instant (a : Armed) : ℚ := a.since + a.delay

/-- A call of `fn`. -/
structure Call where
  armed : Armed
  time : ℤ
  profile : Profile

structure State where
  now : ℤ
  profile : Profile
  t : Option Armed
  stopped : Bool
  calls : List Call

def arm (c : Timer) (s : State) : State :=
  { s with t := some ⟨s.now, c.delay (c.period s.profile) s.now⟩ }

/-- What happens between two timeouts, or while `fn` runs. -/
inductive Act where
  | tick (ms : ℕ)
  | setRadioProfile (p : Profile)
  | stop
  deriving DecidableEq

def act (c : Timer) (s : State) : Act → State
  | .tick ms => { s with now := s.now + ms }
  | .setRadioProfile p =>
    if p = s.profile then s
    else if c.slowable && !s.stopped then arm c { s with profile := p }
    else { s with profile := p }
  | .stop => { s with stopped := true, t := none }

inductive Event where
  | act (a : Act)
  /-- The platform runs the timeout, and this is done while `fn` runs. -/
  | fire (during : List Act)

def call (s : State) (a : Armed) : State :=
  { s with t := none, calls := s.calls ++ [⟨a, s.now, s.profile⟩] }

def step (c : Timer) (s : State) : Event → State
  | .act a => act c s a
  | .fire during =>
    match s.t with
    | none => s
    | some a =>
      if s.now < a.due then s
      else if s.stopped then { s with t := none }
      -- `arm` does not ask whether `fn` stopped its own timer: the timeout it sets then returns at once
      else arm c (during.foldl (act c) (call s a))

def init (c : Timer) (now : ℤ) (profile : Profile) : State := arm c ⟨now, profile, none, false, []⟩

def run (c : Timer) (now : ℤ) (profile : Profile) (es : List Event) : State :=
  es.foldl (step c) (init c now profile)

/-! ## What a step keeps -/

variable {c : Timer} {s : State}

/-- `P` holds of a state, of it with more time or another profile, stopped, and armed anew. -/
theorem act_keeps {P : State → Prop} (htick : ∀ s (ms : ℕ), P s → P { s with now := s.now + ms })
    (hprofile : ∀ s p, P s → P { s with profile := p }) (harm : ∀ s, P s → P (arm c s))
    (hstop : ∀ s, P s → P { s with stopped := true, t := none }) (h : P s) (a : Act) : P (act c s a) := by
  cases a with
  | tick ms => exact htick s ms h
  | setRadioProfile p =>
    simp only [act]
    split
    · exact h
    · split
      · exact harm _ (hprofile s p h)
      · exact hprofile s p h
  | stop => exact hstop s h

theorem acts_keep {P : State → Prop} (hact : ∀ s a, P s → P (act c s a)) (during : List Act) (h : P s) :
    P (during.foldl (act c) s) := by
  induction during generalizing s with
  | nil => exact h
  | cons a during ih => exact ih (hact s a h)

theorem run_keeps {P : State → Prop} {now : ℤ} {profile : Profile} (hinit : P (init c now profile))
    (hstep : ∀ s e, P s → P (step c s e)) (es : List Event) : P (run c now profile es) := by
  suffices h : ∀ s, P s → P (es.foldl (step c) s) from h _ hinit
  induction es with
  | nil => exact fun _ h => h
  | cons e es ih => exact fun s h => ih _ (hstep s e h)

/-! ## Stopped -/

theorem act_stopped (hs : s.stopped = true) (a : Act) :
    (act c s a).stopped = true ∧ (act c s a).calls = s.calls :=
  act_keeps (P := fun s' => s'.stopped = true ∧ s'.calls = s.calls) (fun _ _ h => h) (fun _ _ h => h)
    (fun _ h => h) (fun _ h => ⟨rfl, h.2⟩) ⟨hs, rfl⟩ a

theorem step_stopped (hs : s.stopped = true) (e : Event) :
    (step c s e).stopped = true ∧ (step c s e).calls = s.calls := by
  cases e with
  | act a => exact act_stopped hs a
  | fire during =>
    unfold step
    cases s.t with
    | none => exact ⟨hs, rfl⟩
    | some a =>
      simp only [hs, if_true]
      split
      · exact ⟨hs, rfl⟩
      · exact ⟨rfl, rfl⟩

theorem run_stopped {now : ℤ} {profile : Profile} {es : List Event} (hs : (run c now profile es).stopped = true)
    (later : List Event) : (run c now profile (es ++ later)).calls = (run c now profile es).calls := by
  have h : ∀ (later : List Event) (s : State), s.stopped = true → (later.foldl (step c) s).calls = s.calls := by
    intro later
    induction later with
    | nil => exact fun _ _ => rfl
    | cons e later ih =>
      intro s hs
      obtain ⟨hstop, hcalls⟩ := step_stopped (c := c) hs e
      rw [List.foldl_cons, ih _ hstop, hcalls]
  rw [run, List.foldl_append]
  exact h later _ hs

/-! ## On the grid -/

/-- `a` is for an instant of the grid this profile has. -/
def OnGrid (c : Timer) (profile : Profile) (a : Armed) : Prop :=
  ∃ k : ℤ, a.instant = c.radioPhase + k * c.period profile

/-- What is armed, unless for nothing after the stop, follows the profile, and so did every call. -/
structure Gridded (c : Timer) (s : State) : Prop where
  armed : s.stopped = false → ∀ a, s.t = some a → OnGrid c s.profile a
  calls : ∀ x ∈ s.calls, OnGrid c x.profile x.armed

theorem arm_instant (c : Timer) (s : State) {a : Armed} (h : (arm c s).t = some a) :
    a.instant = c.next (c.period s.profile) s.now := by
  cases h
  exact c.delay_eq (c.period_pos' _) _

theorem gridded_arm (h : ∀ x ∈ s.calls, OnGrid c x.profile x.armed) : Gridded c (arm c s) where
  armed _ _ ha := ⟨_, arm_instant c s ha⟩
  calls := h

theorem Timer.period_steady (h : c.slowable = false) (p q : Profile) : c.period p = c.period q := by
  simp [Timer.period, h]

theorem Gridded.act (h : Gridded c s) (a : Act) : Gridded c (act c s a) := by
  cases a with
  | tick ms => exact ⟨h.armed, h.calls⟩
  | setRadioProfile p =>
    simp only [Radio.act]
    split
    · exact h
    · split
      · exact gridded_arm h.calls
      · rename_i hfixed
        refine ⟨fun hstop a ha => ?_, h.calls⟩
        -- a timer that is not re-armed has one period
        have hslow : c.slowable = false := by
          rw [Bool.and_eq_true, not_and] at hfixed
          by_contra hslow
          exact hfixed (by simpa using hslow) (by simpa using hstop)
        obtain ⟨k, hk⟩ := h.armed hstop a ha
        exact ⟨k, by rw [hk, c.period_steady hslow]⟩
  | stop => exact ⟨by simp [Radio.act], h.calls⟩

theorem Gridded.call (h : Gridded c s) {a : Armed} (ha : OnGrid c s.profile a) : Gridded c (call s a) where
  armed := by simp [Radio.call]
  calls x hx := by
    rcases List.mem_append.mp hx with hx | hx
    · exact h.calls x hx
    · rw [List.mem_singleton.mp hx]
      exact ha

theorem Gridded.step (h : Gridded c s) (e : Event) : Gridded c (step c s e) := by
  cases e with
  | act a => exact h.act a
  | fire during =>
    unfold Radio.step
    cases ht : s.t with
    | none => exact h
    | some a =>
      simp only
      split
      · exact h
      · split
        · exact ⟨by simp, h.calls⟩
        · rename_i hstop
          have ha := h.armed (by simpa using hstop) a ht
          exact gridded_arm (acts_keep (P := Gridded c) (fun _ a h => h.act a) during (h.call ha)).calls

theorem Gridded.run (now : ℤ) (profile : Profile) (es : List Event) : Gridded c (run c now profile es) :=
  run_keeps (gridded_arm (by simp)) (fun _ e h => h.step e) es

/-! ## Once for each instant -/

/-- The grid of whole milliseconds. -/
def Whole (c : Timer) : Prop := c.radioPhase.den = 1 ∧ c.periodMs.den = 1

theorem Whole.period (h : Whole c) (profile : Profile) : ∃ m : ℤ, c.period profile = m := by
  obtain ⟨m, hm⟩ : ∃ m : ℤ, c.periodMs = m := ⟨_, (Rat.den_eq_one_iff _).mp h.2 |>.symm⟩
  unfold Timer.period
  split
  · exact ⟨m * 4, by rw [hm]; push_cast; rfl⟩
  · exact ⟨m, hm⟩

theorem OnGrid.due (h : Whole c) {profile : Profile} {a : Armed} (ha : OnGrid c profile a) :
    (a.due : ℚ) = a.instant := by
  obtain ⟨k, hk⟩ := ha
  obtain ⟨m, hm⟩ := h.period profile
  have hphase : c.radioPhase = (c.radioPhase.num : ℤ) := (Rat.den_eq_one_iff _).mp h.1 |>.symm
  have hdelay : a.delay = ((c.radioPhase.num + k * m - a.since : ℤ) : ℚ) := by
    have : a.delay = a.instant - a.since := by rw [Armed.instant]; ring
    rw [this, hk, hm, hphase]
    push_cast
    simp
  rw [Armed.due, Armed.instant, hdelay, Int.floor_intCast]
  push_cast
  ring

/-- Calls come in the order of their instants, none early, and what is armed is for a later one. -/
structure Once (s : State) : Prop where
  ordered : s.calls.Pairwise fun x y => x.armed.instant < y.armed.instant
  late : ∀ x ∈ s.calls, x.armed.instant ≤ x.time ∧ x.time ≤ s.now
  ahead : ∀ a, s.t = some a → ∀ x ∈ s.calls, x.armed.instant < a.instant

theorem Once.passed (h : Once s) {x : Call} (hx : x ∈ s.calls) : x.armed.instant ≤ s.now := by
  have h1 := (h.late x hx).1
  have h2 : (x.time : ℚ) ≤ s.now := by exact_mod_cast (h.late x hx).2
  exact h1.trans h2

theorem Once.arm (h : Once s) : Once (arm c s) where
  ordered := h.ordered
  late := h.late
  ahead a ha x hx := by
    rw [arm_instant c s ha]
    exact (h.passed hx).trans_lt (c.lt_next (c.period_pos' _) _)

theorem Once.act (h : Once s) (a : Act) : Once (act c s a) := by
  refine act_keeps (fun s ms h => ⟨h.ordered, fun x hx => ?_, h.ahead⟩)
    (fun _ _ h => ⟨h.ordered, h.late, h.ahead⟩) (fun _ h => h.arm) (fun _ h => ⟨h.ordered, h.late, by simp⟩) h a
  obtain ⟨h1, h2⟩ := h.late x hx
  exact ⟨h1, h2.trans (Int.le_add_of_nonneg_right ms.cast_nonneg)⟩

theorem Once.call (h : Once s) {a : Armed} (ht : s.t = some a) (hdue : a.instant ≤ s.now) : Once (call s a) where
  ordered := by
    rw [Radio.call, List.pairwise_append]
    refine ⟨h.ordered, by simp, fun x hx y hy => ?_⟩
    rw [List.mem_singleton.mp hy]
    exact h.ahead a ht x hx
  late x hx := by
    rcases List.mem_append.mp hx with hx | hx
    · exact h.late x hx
    · rw [List.mem_singleton.mp hx]
      exact ⟨hdue, le_rfl⟩
  ahead := by simp [Radio.call]

theorem Once.step (hwhole : Whole c) (hgrid : Gridded c s) (h : Once s) (e : Event) : Once (step c s e) := by
  cases e with
  | act a => exact h.act a
  | fire during =>
    unfold Radio.step
    cases ht : s.t with
    | none => exact h
    | some a =>
      simp only
      split
      · exact h
      · rename_i hdue
        split
        · exact ⟨h.ordered, h.late, by simp⟩
        · rename_i hstop
          have hinstant : a.instant ≤ s.now := by
            rw [← (hgrid.armed (by simpa using hstop) a ht).due hwhole]
            exact_mod_cast not_lt.mp hdue
          exact (acts_keep (P := Once) (fun _ a h => h.act a) during (h.call ht hinstant)).arm

theorem Once.run (hwhole : Whole c) (now : ℤ) (profile : Profile) (es : List Event) : Once (run c now profile es) :=
  (run_keeps (P := fun s => Gridded c s ∧ Once s) ⟨Gridded.run now profile [], Once.arm ⟨by simp, by simp, by simp⟩⟩
    (fun _ e h => ⟨h.1.step e, h.2.step hwhole h.1 e⟩) es).2

/-! ## A fraction early -/

/-- An instant of the grid of the base period that no clock of whole milliseconds reads. -/
theorem exists_fractional (h : ¬ Whole c) : ∃ k : ℤ, ∀ m : ℤ, (m : ℚ) ≠ c.radioPhase + k * c.periodMs := by
  by_contra hall
  push Not at hall
  obtain ⟨m, hm⟩ := hall 0
  obtain ⟨m', hm'⟩ := hall 1
  refine h ⟨?_, ?_⟩
  · rw [show c.radioPhase = (m : ℚ) by rw [hm]; simp]
    exact Rat.den_intCast m
  · rw [show c.periodMs = ((m' - m : ℤ) : ℚ) by push_cast; rw [hm, hm']; push_cast; ring]
    exact Rat.den_intCast _

/-- The clock just before such an instant: the delay is less than a millisecond, and none of it is waited. -/
theorem fires_early (h : ¬ Whole c) :
    ∃ now : ℤ, now < c.next c.periodMs now ∧ ⌊c.delay c.periodMs now⌋ = 0 := by
  obtain ⟨k, hk⟩ := exists_fractional h
  have hnow : ((⌊c.radioPhase + k * c.periodMs⌋ : ℤ) : ℚ) < c.radioPhase + k * c.periodMs :=
    lt_of_le_of_ne (Int.floor_le _) (hk _)
  refine ⟨⌊c.radioPhase + k * c.periodMs⌋, c.lt_next c.period_pos _, Int.floor_eq_zero_iff.mpr ?_⟩
  have hdelay := c.delay_eq c.period_pos ⌊c.radioPhase + k * c.periodMs⌋
  have hle := c.next_le c.period_pos hnow
  have hlt := c.lt_next c.period_pos ⌊c.radioPhase + k * c.periodMs⌋
  have hfloor := Int.lt_floor_add_one (c.radioPhase + k * c.periodMs)
  exact ⟨by linarith, by linarith⟩

/-! ## One wake -/

/-- Every call is for an instant of the grid, at or after it, no instant is called for twice, and nothing is called
after the stop function. -/
structure OneWake (c : Timer) (now : ℤ) (profile : Profile) (es : List Event) : Prop where
  grid : ∀ x ∈ (run c now profile es).calls, OnGrid c x.profile x.armed
  once : ((run c now profile es).calls.map fun x => x.armed.instant).Nodup
  after : ∀ x ∈ (run c now profile es).calls, x.armed.instant ≤ x.time
  stopped : (run c now profile es).stopped = true → ∀ later,
    (run c now profile (es ++ later)).calls = (run c now profile es).calls

/-- The timer is right for exactly the grids of whole milliseconds. -/
theorem one_wake (c : Timer) : (∀ now profile es, OneWake c now profile es) ↔ Whole c := by
  constructor
  · intro h
    by_contra hwhole
    obtain ⟨now, hnext, hfloor⟩ := fires_early hwhole
    have hperiod : c.period .active = c.periodMs := by simp [Timer.period]
    have hcalls : (run c now .active [.fire []]).calls = [⟨⟨now, c.delay c.periodMs now⟩, now, .active⟩] := by
      simp [run, init, step, arm, call, hperiod, Armed.due, hfloor]
    have hafter := (h now .active [.fire []]).after _ (by rw [hcalls]; exact List.mem_singleton_self _)
    rw [Armed.instant, c.delay_eq c.period_pos] at hafter
    exact absurd hnext (not_lt.mpr hafter)
  · intro hwhole now profile es
    have honce := Once.run hwhole now profile es
    refine ⟨(Gridded.run now profile es).calls, ?_, fun x hx => (honce.late x hx).1, run_stopped⟩
    exact List.pairwise_map.mpr (honce.ordered.imp ne_of_lt)

theorem tick_pos : 0 < RADIO_TICK_MS := by norm_num [RADIO_TICK_MS]

theorem half_nonneg : (0 : ℚ) ≤ 1 / 2 := by norm_num

theorem half_lt : 1 / 2 < RADIO_TICK_MS := by norm_num [RADIO_TICK_MS]

/-- A session half a millisecond into the cycle. -/
def half : Timer := ⟨1 / 2, RADIO_TICK_MS, true, half_nonneg, half_lt, tick_pos⟩

/-- Two calls for one instant, both before it. -/
theorem one_wake_twice :
    ((run half 0 .active [.fire [], .fire []]).calls.map fun x => (x.armed.instant, x.time)) =
        [(1 / 2, 0), (1 / 2, 0)] ∧
      ¬ OneWake half 0 .active [.fire [], .fire []] := by
  have hcalls : ((run half 0 .active [.fire [], .fire []]).calls.map fun x => (x.armed.instant, x.time)) =
      [(1 / 2, 0), (1 / 2, 0)] := by
    decide +kernel
  refine ⟨hcalls, fun h => ?_⟩
  have hinstants : ((run half 0 .active [.fire [], .fire []]).calls.map fun x => x.armed.instant) = [1 / 2, 1 / 2] := by
    simpa [Function.comp_def] using congrArg (List.map Prod.fst) hcalls
  have honce := h.once
  rw [hinstants] at honce
  simp at honce

end EncedoChat.Radio
