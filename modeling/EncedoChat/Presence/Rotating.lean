import EncedoChat.Presence.Watch

/-!
# A watch over the days

`watchPresenceRotating` of `lib/presence.ts`. A day's slot is reserved before its topic is derived; a derivation that
fails leaves the slot reserved and ends the pass, and no later pass derives that day again.
-/

namespace EncedoChat.Presence

open SelfSession (Mac)

/-- A day's watch, as its slot has it. -/
structure DayWatch (M : Mac) (τ : Type) where
  day : Date
  watch : PairWatch M τ
  online : Bool

def DayWatch.stopped {M : Mac} {τ : Type} (v : DayWatch M τ) : DayWatch M τ :=
  { v with watch := { v.watch with stopped := true } }

structure Rotating (M : Mac) (τ β : Type) where
  /-- a slot is reserved before its watch is there -/
  watches : OrdMap Date (Option Nat)
  /-- every watch there ever was -/
  objs : List (DayWatch M τ)
  aggregate : Bool
  stopped : Bool
  /-- the calls of `sync` that wait in the chain -/
  queued : Nat
  /-- the `sync` that awaits: when it looked at the clock, the day it derives and those after it -/
  pass : Option (Time × Date × List Date)
  /-- what it has done outside, latest first -/
  outs : List (PairWatch.Out τ (β × Date))
  /-- the passes that came to their end, latest first -/
  passes : List Time
  /-- the days that failed to derive, while they are active -/
  failed : List Date

namespace Rotating

/-- What the caller gives. -/
structure Config (M : Mac) (τ : Type) where
  deriveForDate : Date → τ × M.Key
  offsetMs : Int
  overlapMs : Int
  self : String
  opts : PairWatch.Opts

inductive Event (M : Mac) (τ β : Type) where
  /-- `reconcile` -/
  | tick
  /-- the next `sync` of the chain -/
  | sync (now : Time) (keep : τ → Bool)
  /-- `deriveForDate` settles -/
  | derived (ok : Bool) (keep : τ → Bool)
  /-- something happens at a watch -/
  | watch (i : Nat) (e : PairWatch.Event M τ β)
  | stop (unsubscribe : Bool) (now : Time) (keep : τ → Bool)

variable {M : Mac} {τ β : Type} [DecidableEq τ] (C : Config M τ) (s : Rotating M τ β)

/-- The call: the first `reconcile`. -/
def start : Rotating M τ β := ⟨.empty, [], false, false, 1, none, [], [], []⟩

/-- The days that a pass wants. -/
def Config.want (now : Time) : List Date := activeDatesForOffset now C.offsetMs C.overlapMs

def any : Bool := s.watches.entries.any fun e => (e.2.bind (s.objs[·]?)).any DayWatch.online

def recompute : Rotating M τ β :=
  if s.any && !s.aggregate then { s with aggregate := true, outs := .onOnline :: s.outs }
  else if !s.any && s.aggregate then { s with aggregate := false, outs := .onOffline :: s.outs }
  else s

/-- What a watch does outside, as its owner takes it. -/
def take (i : Nat) (v : DayWatch M τ) : PairWatch.Out τ β → Rotating M τ β
  | .onOnline => { s with objs := s.objs.set i { v with online := true } }.recompute
  | .onOffline => { s with objs := s.objs.set i { v with online := false } }.recompute
  | .onIncomingHandshake bytes frm => { s with outs := .onIncomingHandshake (bytes, v.day) frm :: s.outs }
  | .subscribe topic => { s with outs := .subscribe topic :: s.outs }
  | .unsubscribe topic => { s with outs := .unsubscribe topic :: s.outs }
  | .publish topic frm data => { s with outs := .publish topic frm data :: s.outs }

/-- A watch takes a step; it does one thing outside at most. -/
def onWatch (i : Nat) (f : PairWatch M τ → PairWatch M τ × List (PairWatch.Out τ β)) : Rotating M τ β :=
  match s.objs[i]? with
  | none => s
  | some v =>
    let r := f v.watch
    let v := { v with watch := r.1 }
    r.2.foldl (fun s out => s.take i v out) { s with objs := s.objs.set i v }

/-- `slot.watch?.stop(…)` of each of these slots. -/
def stopAll (slots : List (Date × Option Nat)) (unsubscribe : Date → Bool) (keep : τ → Bool) : Rotating M τ β :=
  slots.foldl (fun s e => e.2.elim s fun i => s.onWatch i fun v => v.stop (unsubscribe e.1) keep) s

/-- The end of a `sync`: days that are wanted no more. -/
def finish (now : Time) (keep : τ → Bool) : Rotating M τ β :=
  let s := s.stopAll (s.watches.entries.filter fun e => e.1 ∉ C.want now) (fun _ => true) keep
  recompute
    { s with
      watches := s.watches.filter fun d _ => d ∈ C.want now
      pass := none
      passes := now :: s.passes
      failed := s.failed.filter (· ∈ C.want now) }

/-- The loop of a `sync`, up to the next await. -/
def syncFrom (now : Time) (keep : τ → Bool) : List Date → Rotating M τ β
  | [] => s.finish C now keep
  | d :: ds =>
    if s.watches.has d || s.stopped then syncFrom now keep ds
    else { s with watches := s.watches.set d none, pass := some (now, d, ds) }

def sync (now : Time) (keep : τ → Bool) : Rotating M τ β :=
  if s.pass.isSome ∨ s.queued = 0 then s
  else
    let s := { s with queued := s.queued - 1 }
    if s.stopped then s else s.syncFrom C now keep (C.want now)

/-- The day's watch is made. -/
def addWatch (d : Date) : Rotating M τ β :=
  let r : PairWatch M τ × List (PairWatch.Out τ β) :=
    PairWatch.start (C.deriveForDate d).1 (C.deriveForDate d).2
  let v : DayWatch M τ := ⟨d, r.1, false⟩
  r.2.foldl (fun t out => t.take s.objs.length v out)
    { s with objs := s.objs ++ [v], watches := s.watches.set d (some s.objs.length), pass := none }

def derived (ok : Bool) (keep : τ → Bool) : Rotating M τ β :=
  match s.pass with
  | none => s
  | some (now, d, ds) =>
    if ok = false then { s with pass := none, failed := d :: s.failed } -- the slot stays reserved
    else if s.stopped then { s with watches := s.watches.delete d, pass := none }
    else (s.addWatch C d).syncFrom C now keep ds

def stop (unsubscribe : Bool) (now : Time) (keep : τ → Bool) : Rotating M τ β :=
  let primary := rendezvousDay now C.offsetMs
  let s := { s with stopped := true }.stopAll s.watches.entries (fun d => unsubscribe || d ≠ primary) keep
  { s with watches := .empty }

def act : Event M τ β → Rotating M τ β
  | .tick => if s.stopped then s else { s with queued := s.queued + 1 }
  | .sync now keep => s.sync C now keep
  | .derived ok keep => s.derived C ok keep
  | .watch i e => s.onWatch i (·.act C.opts C.self e)
  | .stop unsubscribe now keep => s.stop C unsubscribe now keep

/-! ## What a pass is to bring about -/

/-- A watch that has not been stopped. -/
def Live (i : Nat) (v : DayWatch M τ) : Prop := s.objs[i]? = some v ∧ v.watch.stopped = false

/-- Each of these days has its watch, on its topic, and there is no other. -/
structure Covers (days : List Date) : Prop where
  each : ∀ d ∈ days, ∃ i v, s.Live i v ∧ v.day = d
  only : ∀ i v, s.Live i v → v.day ∈ days ∧ v.watch.topic = (C.deriveForDate v.day).1
  once : ∀ i j v w, s.Live i v → s.Live j w → v.day = w.day → i = j

/-- What was reported last. -/
def reported : Bool := (s.outs.findSome? fun
  | .onOnline => some true
  | .onOffline => some false
  | _ => none).getD false

/-- The days' watches are there, and online is reported when one of them is. -/
structure Recovered (days : List Date) : Prop where
  covers : s.Covers C days
  online : s.reported = true ↔ ∃ i v, s.Live i v ∧ v.watch.online = true

/-! ## One step -/

variable {C s} {s' : Rotating M τ β} {keep : τ → Bool} {now : Time}

/-- Which watches there are, and what is under way, does not change. -/
structure Same (s s' : Rotating M τ β) : Prop where
  watches : s'.watches = s.watches
  stopped : s'.stopped = s.stopped
  pass : s'.pass = s.pass
  passes : s'.passes = s.passes
  failed : s'.failed = s.failed

theorem Same.refl (s : Rotating M τ β) : Same s s := ⟨rfl, rfl, rfl, rfl, rfl⟩

theorem Same.trans {s'' : Rotating M τ β} (h : Same s s') (h' : Same s' s'') : Same s s'' :=
  ⟨h'.watches.trans h.watches, h'.stopped.trans h.stopped, h'.pass.trans h.pass, h'.passes.trans h.passes,
    h'.failed.trans h.failed⟩

/-- What is reported is what the slots say. -/
structure Told (s : Rotating M τ β) : Prop where
  reported : s.reported = s.aggregate
  any : s.stopped = false → s.aggregate = s.any

theorem recompute_spec (h : s.reported = s.aggregate) :
    Same s s.recompute ∧ s.recompute.objs = s.objs ∧ Told s.recompute := by
  rw [recompute]
  split
  · rename_i hif
    rw [Bool.and_eq_true] at hif
    exact ⟨⟨rfl, rfl, rfl, rfl, rfl⟩, rfl, rfl, fun _ => hif.1.symm⟩
  · split
    · rename_i hif
      rw [Bool.and_eq_true, Bool.not_eq_true'] at hif
      exact ⟨⟨rfl, rfl, rfl, rfl, rfl⟩, rfl, rfl, fun _ => hif.1.symm⟩
    · refine ⟨.refl s, rfl, h, fun _ => ?_⟩
      cases hany : s.any <;> cases hagg : s.aggregate <;> simp_all

/-- What a watch does outside beside going online or offline. -/
theorem take_other {out : PairWatch.Out τ β} (i : Nat) (v : DayWatch M τ) (hon : out ≠ .onOnline)
    (hoff : out ≠ .onOffline) : Same s (s.take i v out) ∧ (s.take i v out).objs = s.objs ∧
      (s.take i v out).reported = s.reported ∧ (s.take i v out).aggregate = s.aggregate := by
  cases out <;> first | exact absurd rfl hon | exact absurd rfl hoff | exact ⟨⟨rfl, rfl, rfl, rfl, rfl⟩, rfl, rfl, rfl⟩

theorem foldl_take_other {outs : List (PairWatch.Out τ β)} (i : Nat) (v : DayWatch M τ) (hon : .onOnline ∉ outs)
    (hoff : .onOffline ∉ outs) (s : Rotating M τ β) : Same s (outs.foldl (fun s out => s.take i v out) s) ∧
      (outs.foldl (fun s out => s.take i v out) s).objs = s.objs ∧
      (outs.foldl (fun s out => s.take i v out) s).reported = s.reported ∧
      (outs.foldl (fun s out => s.take i v out) s).aggregate = s.aggregate := by
  induction outs generalizing s with
  | nil => exact ⟨.refl s, rfl, rfl, rfl⟩
  | cons out outs ih =>
      rw [List.mem_cons, not_or] at hon hoff
      obtain ⟨hsame, hobjs, hrep, hagg⟩ := take_other (s := s) i v (Ne.symm hon.1) (Ne.symm hoff.1)
      obtain ⟨hsame', hobjs', hrep', hagg'⟩ := ih hon.2 hoff.2 (s.take i v out)
      exact ⟨hsame.trans hsame', hobjs'.trans hobjs, hrep'.trans hrep, hagg'.trans hagg⟩

theorem any_eq_true : s.any = true ↔
    ∃ d i v, s.watches.get d = some (some i) ∧ s.objs[i]? = some v ∧ v.online = true := by
  simp only [any, List.any_eq_true, Option.any_eq_true]
  constructor
  · rintro ⟨⟨d, slot⟩, hmem, v, hv, hon⟩
    obtain ⟨i, rfl, hi⟩ := Option.bind_eq_some_iff.mp hv
    exact ⟨d, i, v, OrdMap.get_eq_some.mpr hmem, hi, hon⟩
  · rintro ⟨d, i, v, hget, hi, hon⟩
    exact ⟨(d, some i), OrdMap.get_eq_some.mp hget, v, hi, hon⟩

/-- The slots say the same if the watches in them are the same, each as online as before. -/
theorem any_congr (hw : ∀ d i, s'.watches.get d = some (some i) ↔ s.watches.get d = some (some i))
    (h : ∀ d i, s.watches.get d = some (some i) →
      (s'.objs[i]?).map DayWatch.online = (s.objs[i]?).map DayWatch.online) : s'.any = s.any := by
  rw [Bool.eq_iff_iff, any_eq_true, any_eq_true]
  constructor
  · rintro ⟨d, i, v, hget, hi, hon⟩
    have hget' := (hw d i).mp hget
    have hmap := (h d i hget').symm
    rw [hi, Option.map_some, Option.map_eq_some_iff] at hmap
    obtain ⟨u, hu, heq⟩ := hmap
    exact ⟨d, i, u, hget', hu, heq.trans hon⟩
  · rintro ⟨d, i, v, hget, hi, hon⟩
    have hmap := h d i hget
    rw [hi, Option.map_some, Option.map_eq_some_iff] at hmap
    obtain ⟨u, hu, heq⟩ := hmap
    exact ⟨d, i, u, (hw d i).mpr hget, hu, heq.trans hon⟩

theorem map_online_set {l : List (DayWatch M τ)} {i : Nat} {v u : DayWatch M τ} (hi : l[i]? = some v)
    (hon : u.online = v.online) (j : Nat) :
    ((l.set i u)[j]?).map DayWatch.online = (l[j]?).map DayWatch.online := by
  rw [List.getElem?_set]
  split
  · subst_vars
    rw [if_pos (List.getElem?_eq_some_iff.mp hi).1, hi, Option.map_some, Option.map_some, hon]
  · rfl

/-- A step of a watch that tells when it goes online or offline. -/
theorem onWatch_spec {i : Nat} {v : DayWatch M τ}
    {f : PairWatch M τ → PairWatch M τ × List (PairWatch.Out τ β)} (hi : s.objs[i]? = some v)
    (hf : PairWatch.Stays v.watch (f v.watch).1 (f v.watch).2) (hsame : v.online = v.watch.online) (ht : Told s) :
    Same s (s.onWatch i f) ∧ Told (s.onWatch i f) ∧
      (s.onWatch i f).objs = s.objs.set i ⟨v.day, (f v.watch).1, (f v.watch).1.online⟩ := by
  rw [onWatch]
  simp only [hi]
  obtain ⟨honline, hon, hoff⟩ | ⟨honline, houts⟩ | ⟨honline, houts⟩ := hf.told
  · obtain ⟨hs, hobjs, hrep, hagg⟩ := foldl_take_other i { v with watch := (f v.watch).1 } hon hoff
      { s with objs := s.objs.set i { v with watch := (f v.watch).1 } }
    refine ⟨⟨hs.watches, hs.stopped, hs.pass, hs.passes, hs.failed⟩, ⟨?_, fun hst => ?_⟩, ?_⟩
    · exact hrep.trans (ht.reported.trans hagg.symm)
    · rw [hagg]
      refine (ht.any (hs.stopped.symm.trans hst)).trans (any_congr (s := s) (fun d j => by rw [hs.watches]) fun _ j _ => ?_).symm
      rw [hobjs]
      exact map_online_set (u := ⟨v.day, (f v.watch).1, v.online⟩) hi rfl j
    · rw [hobjs, honline, ← hsame]
  · rw [houts, List.foldl_cons, List.foldl_nil, take]
    obtain ⟨hs, hobjs, htold⟩ := recompute_spec ht.reported
      (s := { s with objs := (s.objs.set i _).set i ⟨v.day, (f v.watch).1, true⟩ })
    exact ⟨⟨hs.watches, hs.stopped, hs.pass, hs.passes, hs.failed⟩, htold, by rw [hobjs, List.set_set, honline]⟩
  · rw [houts, List.foldl_cons, List.foldl_nil, take]
    obtain ⟨hs, hobjs, htold⟩ := recompute_spec ht.reported
      (s := { s with objs := (s.objs.set i _).set i ⟨v.day, (f v.watch).1, false⟩ })
    exact ⟨⟨hs.watches, hs.stopped, hs.pass, hs.passes, hs.failed⟩, htold, by rw [hobjs, List.set_set, honline]⟩

theorem onWatch_stop (i : Nat) (u : Bool) (keep : τ → Bool) (s : Rotating M τ β) :
    Same s (s.onWatch i fun v => v.stop u keep) ∧ (s.onWatch i fun v => v.stop u keep).reported = s.reported ∧
      (s.onWatch i fun v => v.stop u keep).aggregate = s.aggregate ∧
      ∀ j : Nat, (s.onWatch i fun v => v.stop u keep).objs[j]? =
        (s.objs[j]?).map fun v => if j = i then v.stopped else v := by
  rw [onWatch]
  cases hi : s.objs[i]? with
  | none =>
      refine ⟨.refl s, rfl, rfl, fun j => ?_⟩
      by_cases hj : j = i
      · rw [hj, hi]
        rfl
      · simp [hj]
  | some v =>
      obtain ⟨hon, hoff⟩ : PairWatch.Out.onOnline ∉ (v.watch.stop (β := β) u keep).2 ∧
          PairWatch.Out.onOffline ∉ (v.watch.stop (β := β) u keep).2 := by
        rw [PairWatch.stop]
        split <;> simp
      obtain ⟨hs, hobjs, hrep, hagg⟩ := foldl_take_other i v.stopped hon hoff { s with objs := s.objs.set i v.stopped }
      refine ⟨⟨hs.watches, hs.stopped, hs.pass, hs.passes, hs.failed⟩, hrep, hagg, fun j => ?_⟩
      refine (congrArg (·[j]?) hobjs).trans ?_
      rw [List.getElem?_set]
      by_cases hj : j = i
      · rw [if_pos hj.symm, if_pos (List.getElem?_eq_some_iff.mp hi).1, hj, hi, Option.map_some, if_pos rfl]
      · simp [hj, Ne.symm hj]

/-- `stop` of the watches in these slots. -/
theorem stopAll_spec (slots : List (Date × Option Nat)) (u : Date → Bool) (keep : τ → Bool) (s : Rotating M τ β) :
    Same s (s.stopAll slots u keep) ∧ (s.stopAll slots u keep).reported = s.reported ∧
      (s.stopAll slots u keep).aggregate = s.aggregate ∧
      ∀ j : Nat, (s.stopAll slots u keep).objs[j]? =
        (s.objs[j]?).map fun v => if some j ∈ slots.map Prod.snd then v.stopped else v := by
  induction slots generalizing s with
  | nil => exact ⟨.refl s, rfl, rfl, fun j => by simp [stopAll]⟩
  | cons e slots ih =>
      obtain ⟨d, _ | i⟩ := e
      · obtain ⟨hs, hrep, hagg, hobjs⟩ := ih s
        refine ⟨hs, hrep, hagg, fun j => (hobjs j).trans ?_⟩
        simp only [List.map_cons, List.mem_cons, reduceCtorEq, false_or]
      · obtain ⟨hs, hrep, hagg, hobjs⟩ := onWatch_stop i (u d) keep s
        obtain ⟨hs', hrep', hagg', hobjs'⟩ := ih (s.onWatch i fun v => v.stop (u d) keep)
        refine ⟨hs.trans hs', hrep'.trans hrep, hagg'.trans hagg, fun j => (hobjs' j).trans ?_⟩
        rw [hobjs, Option.map_map]
        congr 1
        funext v
        by_cases hj : j = i <;> by_cases hm : some j ∈ slots.map Prod.snd <;> simp_all [DayWatch.stopped]

/-! ## What holds of the slots -/

structure Inv (C : Config M τ) (s : Rotating M τ β) : Prop where
  slot : ∀ d i, s.watches.get d = some (some i) → ∃ v, s.Live i v ∧ v.day = d
  live : ∀ i v, s.Live i v → s.watches.get v.day = some (some i)
  topic : ∀ (i : Nat) v, s.objs[i]? = some v → v.watch.topic = (C.deriveForDate v.day).1
  same : ∀ (i : Nat) v, s.objs[i]? = some v → v.online = v.watch.online
  told : Told s
  /-- a slot without a watch is being derived, or has failed to -/
  blank : ∀ d, s.watches.get d = some none → d ∈ s.failed ∨ ∃ t ds, s.pass = some (t, d, ds)
  failed : s.stopped = false → ∀ d ∈ s.failed, s.watches.get d = some none
  pending : ∀ t d ds, s.pass = some (t, d, ds) → s.stopped = false → s.watches.get d = some none ∧ d ∉ s.failed ∧
    ∀ x ∈ C.want t, x ∈ d :: ds ∨ s.watches.has x = true
  cleared : s.stopped = true → ∀ d, s.watches.get d = none

/-- A pass has come to its end: the slots are the days it wanted. -/
structure Settled (C : Config M τ) (now : Time) (s : Rotating M τ β) : Prop where
  pass : s.pass = none
  stopped : s.stopped = false
  days : ∀ d, s.watches.has d = true ↔ d ∈ C.want now

theorem Inv.start : Inv C (start : Rotating M τ β) where
  slot _ _ h := by cases h
  live i v h := by cases h.1
  topic i v h := by cases h
  same i v h := by cases h
  told := ⟨rfl, fun _ => rfl⟩
  blank _ h := by cases h
  failed _ _ h := absurd h List.not_mem_nil
  pending _ _ _ h := by cases h
  cleared h := by cases h

/-- The watches change, but none of its day or its topic, and none starts or stops. -/
theorem Inv.moved (h : Inv C s) (hs : Same s s') (ht : Told s') {g : Nat → DayWatch M τ → DayWatch M τ}
    (hobjs : ∀ i : Nat, s'.objs[i]? = (s.objs[i]?).map (g i))
    (hg : ∀ (i : Nat) v, s.objs[i]? = some v → (g i v).day = v.day ∧ (g i v).watch.topic = v.watch.topic ∧
      (g i v).watch.stopped = v.watch.stopped ∧ (g i v).online = (g i v).watch.online) : Inv C s' := by
  have hback : ∀ (i : Nat) v', s'.objs[i]? = some v' → ∃ v, s.objs[i]? = some v ∧ g i v = v' := fun i v' hv' =>
    Option.map_eq_some_iff.mp ((hobjs i).symm.trans hv')
  refine ⟨fun d i hd => ?_, fun i v' hv' => ?_, fun i v' hv' => ?_, fun i v' hv' => ?_, ht, ?_, ?_, ?_, ?_⟩
  · obtain ⟨v, hv, hday⟩ := h.slot d i (hs.watches ▸ hd)
    obtain ⟨hday', -, hstopped, -⟩ := hg i v hv.1
    exact ⟨g i v, ⟨by rw [hobjs, hv.1]; rfl, hstopped.trans hv.2⟩, hday'.trans hday⟩
  · obtain ⟨v, hv, rfl⟩ := hback i v' hv'.1
    obtain ⟨hday, -, hstopped, -⟩ := hg i v hv
    rw [hs.watches, hday]
    exact h.live i v ⟨hv, hstopped.symm.trans hv'.2⟩
  · obtain ⟨v, hv, rfl⟩ := hback i v' hv'
    obtain ⟨hday, htopic, -, -⟩ := hg i v hv
    rw [htopic, hday]
    exact h.topic i v hv
  · obtain ⟨v, hv, rfl⟩ := hback i v' hv'
    exact (hg i v hv).2.2.2
  · rw [hs.watches, hs.failed, hs.pass]
    exact h.blank
  · rw [hs.watches, hs.failed, hs.stopped]
    exact h.failed
  · rw [hs.watches, hs.failed, hs.pass, hs.stopped]
    exact h.pending
  · rw [hs.watches, hs.stopped]
    exact h.cleared

theorem Inv.onWatch (h : Inv C s) {i : Nat} {f : PairWatch M τ → PairWatch M τ × List (PairWatch.Out τ β)}
    (hf : ∀ v, PairWatch.Stays v (f v).1 (f v).2) : Inv C (s.onWatch i f) ∧ Same s (s.onWatch i f) := by
  cases hi : s.objs[i]? with
  | none =>
      have hsame : s.onWatch i f = s := by rw [Rotating.onWatch, hi]
      rw [hsame]
      exact ⟨h, .refl s⟩
  | some v =>
      obtain ⟨hs, ht, hobjs⟩ := onWatch_spec hi (hf v.watch) (h.same i v hi) h.told
      refine ⟨h.moved hs ht (g := fun j u => if j = i then ⟨u.day, (f u.watch).1, (f u.watch).1.online⟩ else u)
        (fun j => ?_) (fun j u hu => ?_), hs⟩
      · rw [hobjs, List.getElem?_set]
        by_cases hj : j = i
        · rw [if_pos hj.symm, if_pos (List.getElem?_eq_some_iff.mp hi).1, hj, hi, Option.map_some, if_pos rfl]
        · simp [hj, Ne.symm hj]
      · by_cases hj : j = i
        · rw [if_pos hj]
          exact ⟨rfl, (hf u.watch).topic, (hf u.watch).stopped, rfl⟩
        · rw [if_neg hj]
          exact ⟨rfl, rfl, rfl, h.same j u hu⟩

/-- The end of a pass: what is wanted no more is stopped, and its slots are gone. -/
theorem Inv.finish (h : Inv C s) (keep : τ → Bool) (hpass : s.pass = none) (hst : s.stopped = false)
    (hall : ∀ d ∈ C.want now, s.watches.has d = true) : Inv C (s.finish C now keep) ∧
      Settled C now (s.finish C now keep) ∧ (s.finish C now keep).passes = now :: s.passes ∧
      (s.finish C now keep).failed = s.failed.filter (· ∈ C.want now) := by
  obtain ⟨hs, hrep, hagg, hobjs⟩ :=
    stopAll_spec (s.watches.entries.filter fun e => e.1 ∉ C.want now) (fun _ => true) keep s
  rw [Rotating.finish]
  generalize s.stopAll (s.watches.entries.filter fun e => e.1 ∉ C.want now) (fun _ => true) keep = u
    at hs hrep hagg hobjs ⊢
  obtain ⟨hs', hobjs', ht⟩ := recompute_spec
    (s := { u with
      watches := u.watches.filter fun d _ => d ∈ C.want now
      pass := none
      passes := now :: u.passes
      failed := u.failed.filter (· ∈ C.want now) }) (hrep.trans (h.told.reported.trans hagg.symm))
  generalize recompute { u with
      watches := u.watches.filter fun d _ => d ∈ C.want now
      pass := none
      passes := now :: u.passes
      failed := u.failed.filter (· ∈ C.want now) } = t at hs' hobjs' ht ⊢
  -- what is stopped is in a slot of another day
  have hout : ∀ i : Nat, some i ∈ (s.watches.entries.filter fun e => e.1 ∉ C.want now).map Prod.snd ↔
      ∃ d, s.watches.get d = some (some i) ∧ d ∉ C.want now := by
    intro i
    simp only [List.mem_map, List.mem_filter, decide_eq_true_eq, Prod.exists, OrdMap.get_eq_some]
    constructor
    · rintro ⟨d, slot, ⟨hmem, hd⟩, rfl⟩
      exact ⟨d, hmem, hd⟩
    · rintro ⟨d, hmem, hd⟩
      exact ⟨d, some i, ⟨hmem, hd⟩, rfl⟩
  have hwatches : t.watches = s.watches.filter fun d _ => d ∈ C.want now := hs'.watches.trans (by rw [hs.watches])
  have hget : ∀ d slot, t.watches.get d = some slot ↔ s.watches.get d = some slot ∧ d ∈ C.want now := by
    intro d slot
    rw [hwatches, OrdMap.get_filter, decide_eq_true_eq]
  have htobj : ∀ (i : Nat) v, t.objs[i]? = some v → ∃ w, s.objs[i]? = some w ∧ w.day = v.day ∧
      w.watch.topic = v.watch.topic ∧ w.online = v.online ∧ w.watch.online = v.watch.online := by
    intro i v hv
    rw [hobjs', hobjs] at hv
    obtain ⟨w, hw, rfl⟩ := Option.map_eq_some_iff.mp hv
    refine ⟨w, hw, ?_⟩
    split <;> exact ⟨rfl, rfl, rfl, rfl⟩
  have hlive : ∀ i v, t.Live i v ↔ s.Live i v ∧ v.day ∈ C.want now := by
    intro i v
    rw [Live, hobjs', hobjs]
    constructor
    · rintro ⟨hv, hstop⟩
      obtain ⟨w, hw, heq⟩ := Option.map_eq_some_iff.mp hv
      split at heq
      · rw [← heq] at hstop
        cases hstop
      · rename_i hno
        subst heq
        refine ⟨⟨hw, hstop⟩, by_contra fun hd => hno ((hout i).mpr ⟨w.day, h.live i w ⟨hw, hstop⟩, hd⟩)⟩
    · rintro ⟨hv, hd⟩
      refine ⟨?_, hv.2⟩
      rw [hv.1, Option.map_some, if_neg]
      intro hin
      obtain ⟨d, hslot, hd'⟩ := (hout i).mp hin
      obtain ⟨w, hw, hday⟩ := h.slot d i hslot
      obtain rfl := Option.some.inj (hv.1.symm.trans hw.1)
      exact hd' (hday ▸ hd)
  have hstopped : t.stopped = false := hs'.stopped.trans (hs.stopped.trans hst)
  have hfailed : t.failed = s.failed.filter (· ∈ C.want now) := hs'.failed.trans (by rw [hs.failed])
  refine ⟨⟨fun d i hd => ?_, fun i v hv => ?_, fun i v hv => ?_, fun i v hv => ?_, ht, fun d hd => ?_, fun _ d hd => ?_,
    fun _ _ _ hp => ?_, fun hst' => ?_⟩, ⟨hs'.pass, hstopped, fun d => ?_⟩, hs'.passes.trans (by rw [hs.passes]), hfailed⟩
  · obtain ⟨hslot, hmem⟩ := (hget d _).mp hd
    obtain ⟨v, hv, rfl⟩ := h.slot d i hslot
    exact ⟨v, (hlive i v).mpr ⟨hv, hmem⟩, rfl⟩
  · obtain ⟨hv, hmem⟩ := (hlive i v).mp hv
    exact (hget _ _).mpr ⟨h.live i v hv, hmem⟩
  · obtain ⟨w, hw, hday, htopic, -, -⟩ := htobj i v hv
    rw [← htopic, ← hday]
    exact h.topic i w hw
  · obtain ⟨w, hw, -, -, hon, hwon⟩ := htobj i v hv
    rw [← hon, ← hwon]
    exact h.same i w hw
  · obtain ⟨hslot, hmem⟩ := (hget d none).mp hd
    obtain hf | ⟨_, _, hp⟩ := h.blank d hslot
    · exact .inl (hfailed ▸ List.mem_filter.mpr ⟨hf, decide_eq_true hmem⟩)
    · rw [hpass] at hp
      cases hp
  · rw [hfailed, List.mem_filter, decide_eq_true_eq] at hd
    exact (hget d none).mpr ⟨h.failed hst d hd.1, hd.2⟩
  · cases hs'.pass.symm.trans hp
  · rw [hstopped] at hst'
    cases hst'
  · rw [OrdMap.has, Option.isSome_iff_exists]
    constructor
    · rintro ⟨slot, hslot⟩
      exact ((hget d slot).mp hslot).2
    · intro hmem
      obtain ⟨slot, hslot⟩ := Option.isSome_iff_exists.mp (hall d hmem)
      exact ⟨slot, (hget d slot).mpr ⟨hslot, hmem⟩⟩

/-- What a pass may come to: it goes on, or it has settled. -/
structure Passed (C : Config M τ) (now : Time) (s s' : Rotating M τ β) : Prop where
  inv : Inv C s'
  ended : s'.passes = s.passes ∨ s'.passes = now :: s.passes ∧ Settled C now s' ∧
    ∀ d ∈ C.want now, d ∈ s'.failed ↔ d ∈ s.failed

theorem Inv.syncFrom (h : Inv C s) (keep : τ → Bool) (now : Time) (hpass : s.pass = none) (hst : s.stopped = false)
    {ds : List Date} (hall : ∀ d ∈ C.want now, d ∈ ds ∨ s.watches.has d = true) : Passed C now s (s.syncFrom C now keep ds) := by
  induction ds with
  | nil =>
      obtain ⟨hinv, hset, hpasses, hfailed⟩ :=
        h.finish keep hpass hst fun d hd => (hall d hd).resolve_left List.not_mem_nil
      refine ⟨hinv, .inr ⟨hpasses, hset, fun d hd => ?_⟩⟩
      rw [Rotating.syncFrom, hfailed, List.mem_filter, decide_eq_true_eq]
      exact and_iff_left hd
  | cons d ds ih =>
      rw [Rotating.syncFrom]
      split
      · rename_i hskip
        rw [hst, Bool.or_false] at hskip
        refine ih fun x hx => ?_
        obtain hm | hhas := hall x hx
        · obtain rfl | hm := List.mem_cons.mp hm
          · exact .inr hskip
          · exact .inl hm
        · exact .inr hhas
      · rename_i hnew
        rw [hst, Bool.or_false, Bool.not_eq_true, OrdMap.has, Option.isSome_eq_false_iff, Option.isNone_iff_eq_none]
          at hnew
        have hne : ∀ x slot, s.watches.get x = some slot → x ≠ d := fun x slot hx he => by
          rw [he, hnew] at hx
          cases hx
        refine ⟨⟨fun x i hx => ?_, fun i v hv => ?_, h.topic, h.same, ⟨h.told.reported, fun _ => ?_⟩, fun x hx => ?_,
          fun _ x hx => ?_, fun t x xs hp _ => ?_, fun hst' => absurd (hst.symm.trans hst') (by decide)⟩, .inl rfl⟩
        · rw [OrdMap.get_set] at hx
          split at hx
          · cases hx
          · exact h.slot x i hx
        · have hslot := h.live i v hv
          rw [OrdMap.get_set, if_neg (hne _ _ hslot)]
          exact hslot
        · refine (h.told.any hst).trans (Eq.symm ?_)
          refine any_congr (fun x i => ?_) fun _ _ _ => rfl
          rw [OrdMap.get_set]
          split
          · subst_vars
            simp [hnew]
          · rfl
        · rw [OrdMap.get_set] at hx
          split at hx
          · subst_vars
            exact .inr ⟨now, ds, rfl⟩
          · obtain hf | ⟨_, _, hp⟩ := h.blank x hx
            · exact .inl hf
            · rw [hpass] at hp
              cases hp
        · have hslot := h.failed hst x hx
          rw [OrdMap.get_set, if_neg (hne _ _ hslot)]
          exact hslot
        · obtain ⟨rfl, rfl, rfl⟩ : now = t ∧ d = x ∧ ds = xs := by simpa using hp
          refine ⟨OrdMap.get_set_self .., fun hf => hne _ _ (h.failed hst d hf) rfl, fun y hy => ?_⟩
          refine (hall y hy).imp id fun hhas => ?_
          rw [OrdMap.has_set, hhas, Bool.or_true]

theorem Inv.addWatch (h : Inv C s) {t : Time} {d : Date} {ds : List Date} (hp : s.pass = some (t, d, ds))
    (hst : s.stopped = false) : Inv C (s.addWatch C d) ∧ (s.addWatch C d).pass = none ∧
      (s.addWatch C d).stopped = false ∧ (s.addWatch C d).passes = s.passes ∧ (s.addWatch C d).failed = s.failed ∧
      ∀ x ∈ C.want t, x ∈ ds ∨ (s.addWatch C d).watches.has x = true := by
  obtain ⟨hslot, hnf, hwant⟩ := h.pending t d ds hp hst
  have hne : ∀ x i, s.watches.get x = some (some i) → x ≠ d := fun x i hx he => by
    rw [he, hslot] at hx
    cases hx
  have hold : ∀ i v, s.Live i v → i < s.objs.length := fun i v hv => (List.getElem?_eq_some_iff.mp hv.1).1
  have hnew : ∀ (v : DayWatch M τ) (i : Nat) w, (s.objs ++ [v])[i]? = some w → s.objs[i]? = some w ∨
      i = s.objs.length ∧ w = v := fun v i w hw => by
    obtain hlt | hge := Nat.lt_or_ge i s.objs.length
    · rw [List.getElem?_append_left hlt] at hw
      exact .inl hw
    · rw [List.getElem?_append_right hge, List.getElem?_singleton] at hw
      split at hw
      · exact .inr ⟨by omega, (Option.some.inj hw).symm⟩
      · cases hw
  have hget : ∀ (v : DayWatch M τ) {i : Nat} {w}, s.objs[i]? = some w → (s.objs ++ [v])[i]? = some w :=
    fun v i w hw => by rwa [List.getElem?_append_left (List.getElem?_eq_some_iff.mp hw).1]
  obtain ⟨v, hday, hvtopic, hvon, hvwon, hvstop, hadd⟩ : ∃ v : DayWatch M τ, v.day = d ∧
      v.watch.topic = (C.deriveForDate d).1 ∧ v.online = false ∧ v.watch.online = false ∧ v.watch.stopped = false ∧
      s.addWatch C d = { s with
        objs := s.objs ++ [v]
        watches := s.watches.set d (some s.objs.length)
        pass := none
        outs := .subscribe (C.deriveForDate d).1 :: s.outs } := ⟨_, rfl, rfl, rfl, rfl, rfl, rfl⟩
  rw [hadd]
  refine ⟨⟨fun x i hx => ?_, fun i w hw => ?_, fun i w hw => ?_, fun i w hw => ?_, ⟨h.told.reported, fun _ => ?_⟩,
    fun x hx => ?_, fun _ x hx => ?_, fun _ _ _ hp' _ => ?_, fun hst' => absurd (hst.symm.trans hst') (by decide)⟩,
    rfl, hst, rfl, rfl, fun x hx => ?_⟩
  · rw [OrdMap.get_set] at hx
    split at hx
    · cases hx
      subst_vars
      exact ⟨v, ⟨by simp, hvstop⟩, rfl⟩
    · obtain ⟨w, hw, hxw⟩ := h.slot x i hx
      exact ⟨w, ⟨hget v hw.1, hw.2⟩, hxw⟩
  · rw [OrdMap.get_set]
    obtain hw' | ⟨rfl, rfl⟩ := hnew v i w hw.1
    · have hslot' := h.live i w ⟨hw', hw.2⟩
      rw [if_neg (hne _ _ hslot')]
      exact hslot'
    · rw [if_pos hday]
  · obtain hw' | ⟨-, rfl⟩ := hnew v i w hw
    · exact h.topic i w hw'
    · rw [hvtopic, hday]
  · obtain hw' | ⟨-, rfl⟩ := hnew v i w hw
    · exact h.same i w hw'
    · rw [hvon, hvwon]
  · -- the new watch has not gone online
    refine (h.told.any hst).trans (Bool.eq_iff_iff.mpr ?_)
    rw [any_eq_true, any_eq_true]
    constructor
    · rintro ⟨x, i, w, hx, hw, hon⟩
      exact ⟨x, i, w, by rw [OrdMap.get_set, if_neg (hne x i hx)]; exact hx, hget v hw, hon⟩
    · rintro ⟨x, i, w, hx, hw, hon⟩
      obtain hw' | ⟨-, rfl⟩ := hnew v i w hw
      · rw [OrdMap.get_set] at hx
        split at hx
        · obtain rfl : s.objs.length = i := by simpa using hx
          exact absurd (List.getElem?_eq_some_iff.mp hw').1 (lt_irrefl _)
        · exact ⟨x, i, w, hx, hw', hon⟩
      · rw [hvon] at hon
        cases hon
  · rw [OrdMap.get_set] at hx
    split at hx
    · cases hx
    · obtain hf | ⟨_, _, hp'⟩ := h.blank x hx
      · exact .inl hf
      · rw [hp] at hp'
        cases hp'
        exact absurd rfl ‹_›
  · rw [OrdMap.get_set, if_neg (fun he : x = d => hnf (he ▸ hx))]
    exact h.failed hst x hx
  · cases hp'
  · obtain hm | hhas := hwant x hx
    · obtain rfl | hm := List.mem_cons.mp hm
      · exact .inr (by rw [OrdMap.has_set]; simp)
      · exact .inl hm
    · exact .inr (by rw [OrdMap.has_set, hhas, Bool.or_true])

theorem Inv.derived (h : Inv C s) (ok : Bool) (keep : τ → Bool) :
    ∃ now, Passed C now s (s.derived C ok keep) := by
  rw [Rotating.derived]
  cases hp : s.pass with
  | none => exact ⟨0, h, .inl rfl⟩
  | some p =>
      obtain ⟨now, d, ds⟩ := p
      refine ⟨now, ?_⟩
      simp only
      split
      · -- the derivation failed: the slot is as it was
        refine ⟨⟨h.slot, h.live, h.topic, h.same, ⟨h.told.reported, h.told.any⟩, fun x hx => ?_, fun hst x hx => ?_,
          fun _ _ _ hp' => (by cases hp'), h.cleared⟩, .inl rfl⟩
        · obtain hf | ⟨_, _, hp'⟩ := h.blank x hx
          · exact .inl (List.mem_cons_of_mem _ hf)
          · rw [hp] at hp'
            cases hp'
            exact .inl (List.mem_cons_self ..)
        · obtain rfl | hx := List.mem_cons.mp hx
          · exact (h.pending _ _ _ hp hst).1
          · exact h.failed hst x hx
      · split
        · rename_i hst
          have hgone : ∀ x, (s.watches.delete d).get x = none := fun x => by
            rw [OrdMap.get_delete]
            split
            · rfl
            · exact h.cleared hst x
          refine ⟨⟨fun x i hx => ?_, fun i v hv => ?_, h.topic, h.same, ⟨h.told.reported, fun hst' => ?_⟩, fun x hx => ?_,
            fun hst' => ?_, fun _ _ _ hp' => (by cases hp'), fun _ => hgone⟩, .inl rfl⟩
          · rw [hgone] at hx
            cases hx
          · have hslot := h.live i v hv
            rw [h.cleared hst] at hslot
            cases hslot
          · exact absurd (hst.symm.trans hst') (by decide)
          · rw [hgone] at hx
            cases hx
          · exact absurd (hst.symm.trans hst') (by decide)
        · rename_i hst
          obtain ⟨hinv, hpass, hst', hpasses, hfailed, hall⟩ := h.addWatch hp (Bool.eq_false_iff.mpr hst)
          obtain ⟨hinv', hended⟩ := hinv.syncFrom keep now hpass hst' hall
          rw [hpasses, hfailed] at hended
          exact ⟨hinv', hended⟩

theorem Inv.stop (h : Inv C s) (u : Bool) (now : Time) (keep : τ → Bool) : Inv C (s.stop C u now keep) ∧
    (s.stop C u now keep).passes = s.passes := by
  obtain ⟨hs, hrep, hagg, hobjs⟩ := stopAll_spec s.watches.entries
    (fun d => u || decide (d ≠ rendezvousDay now C.offsetMs)) keep { s with stopped := true }
  rw [Rotating.stop]
  generalize { s with stopped := true }.stopAll s.watches.entries
    (fun d => u || decide (d ≠ rendezvousDay now C.offsetMs)) keep = t at hs hrep hagg hobjs ⊢
  have hstopped : t.stopped = true := hs.stopped
  have htobj : ∀ (i : Nat) v, t.objs[i]? = some v → ∃ w, s.objs[i]? = some w ∧ w.day = v.day ∧
      w.watch.topic = v.watch.topic ∧ w.online = v.online ∧ w.watch.online = v.watch.online := by
    intro i v hv
    rw [hobjs] at hv
    obtain ⟨w, hw, rfl⟩ := Option.map_eq_some_iff.mp hv
    refine ⟨w, hw, ?_⟩
    split <;> exact ⟨rfl, rfl, rfl, rfl⟩
  refine ⟨⟨fun x i hx => (by cases hx), fun i v hv => ?_, fun i v hv => ?_, fun i v hv => ?_,
    ⟨hrep.trans (h.told.reported.trans hagg.symm), fun hst' => ?_⟩, fun x hx => (by cases hx), fun hst' => ?_,
    fun _ _ _ _ hst' => ?_, fun _ _ => rfl⟩, hs.passes⟩
  · -- every watch that was live was in a slot
    obtain ⟨hv, hlive⟩ := hv
    rw [hobjs] at hv
    obtain ⟨w, hw, heq⟩ := Option.map_eq_some_iff.mp hv
    split at heq
    · rw [← heq] at hlive
      cases hlive
    · rename_i hno
      subst heq
      have hslot := OrdMap.get_eq_some.mp (h.live i w ⟨hw, hlive⟩)
      exact absurd (List.mem_map_of_mem hslot) hno
  · obtain ⟨w, hw, hday, htopic, -, -⟩ := htobj i v hv
    rw [← htopic, ← hday]
    exact h.topic i w hw
  · obtain ⟨w, hw, -, -, hon, hwon⟩ := htobj i v hv
    rw [← hon, ← hwon]
    exact h.same i w hw
  all_goals exact absurd (hstopped.symm.trans hst') (by decide)

/-! ## Recovery -/

theorem Inv.act (h : Inv C s) (e : Event M τ β) : ∃ now, Passed C now s (s.act C e) := by
  cases e with
  | tick =>
      refine ⟨0, ?_, .inl ?_⟩ <;> rw [Rotating.act] <;> split
      · exact h
      · exact ⟨h.slot, h.live, h.topic, h.same, ⟨h.told.reported, h.told.any⟩, h.blank, h.failed, h.pending, h.cleared⟩
      · rfl
      · rfl
  | sync now keep =>
      refine ⟨now, ?_⟩
      rw [Rotating.act, Rotating.sync]
      split
      · exact ⟨h, .inl rfl⟩
      · rename_i hfree
        rw [not_or, Option.not_isSome_iff_eq_none] at hfree
        have hless : Inv C { s with queued := s.queued - 1 } :=
          ⟨h.slot, h.live, h.topic, h.same, ⟨h.told.reported, h.told.any⟩, h.blank, h.failed, h.pending, h.cleared⟩
        simp only
        split
        · exact ⟨hless, .inl rfl⟩
        · rename_i hst
          have hp := hless.syncFrom keep now hfree.1 (Bool.eq_false_iff.mpr hst) fun d hd => .inl hd
          exact ⟨hp.inv, hp.ended⟩
  | derived ok keep => exact h.derived ok keep
  | watch i e =>
      obtain ⟨hinv, hs⟩ := h.onWatch (i := i) fun _ => PairWatch.stays_act e
      exact ⟨0, hinv, .inl hs.passes⟩
  | stop u now keep =>
      obtain ⟨hinv, hpasses⟩ := h.stop u now keep
      exact ⟨now, hinv, .inl hpasses⟩

theorem Inv.reach (h : Reach (Rotating.act C) (fun _ _ => True) (Rotating.start : Rotating M τ β) s) : Inv C s :=
  h.invariant .start fun _ e hi _ => (hi.act e).elim fun _ hp => hp.inv

/-- The slots of a pass that has settled are its days' watches, but for the days that failed. -/
theorem Settled.recovered_iff (hset : Settled C now s) (h : Inv C s) :
    Recovered C s (C.want now) ↔ ∀ d ∈ C.want now, d ∉ s.failed := by
  constructor
  · intro hr d hd hf
    obtain ⟨i, v, hv, rfl⟩ := hr.covers.each d hd
    cases (h.live i v hv).symm.trans (h.failed hset.stopped _ hf)
  · intro hnone
    refine ⟨⟨fun d hd => ?_, fun i v hv => ⟨?_, h.topic i v hv.1⟩, fun i j v w hv hw heq => ?_⟩, ?_⟩
    · obtain ⟨slot, hslot⟩ := Option.isSome_iff_exists.mp ((hset.days d).mpr hd)
      cases slot with
      | none =>
          obtain hf | ⟨_, _, hp⟩ := h.blank d hslot
          · exact absurd hf (hnone d hd)
          · rw [hset.pass] at hp
            cases hp
      | some i =>
          obtain ⟨v, hv, hday⟩ := h.slot d i hslot
          exact ⟨i, v, hv, hday⟩
    · exact (hset.days _).mp (OrdMap.has_of_get (h.live i v hv))
    · have hslot := h.live i v hv
      rw [heq, h.live j w hw] at hslot
      exact (Option.some.inj (Option.some.inj hslot)).symm
    · rw [h.told.reported, h.told.any hset.stopped, any_eq_true]
      constructor
      · rintro ⟨d, i, v, hslot, hv, hon⟩
        obtain ⟨w, hw, -⟩ := h.slot d i hslot
        obtain rfl := Option.some.inj (hv.symm.trans hw.1)
        exact ⟨i, v, hw, (h.same i v hv).symm.trans hon⟩
      · rintro ⟨i, v, hv, hon⟩
        exact ⟨v.day, i, v, h.live i v hv, hv.1, (h.same i v hv.1).trans hon⟩

/-- A pass that comes to its end brings the days' watches about exactly when none of its days failed to derive in a pass
before it, since it was last inactive. -/
theorem recovers_iff (hreach : Reach (act C) (fun _ _ => True) start s) (e : Event M τ β) {now : Time}
    (hpass : (s.act C e).passes = now :: s.passes) :
    Recovered C (s.act C e) (C.want now) ↔ ∀ d ∈ C.want now, d ∉ s.failed := by
  obtain ⟨t, hinv, hsame | ⟨hpasses, hset, hfailed⟩⟩ := (Inv.reach hreach).act e
  · rw [hsame] at hpass
    exact absurd hpass.symm (List.cons_ne_self _ _)
  · obtain rfl : now = t := (List.cons.inj (hpass.symm.trans hpasses)).1
    rw [hset.recovered_iff hinv]
    exact forall₂_congr fun d hd => not_congr (hfailed d hd)

def sampleConfig : Config Listening.strokes Int where
  deriveForDate d := (d, ())
  offsetMs := 0
  overlapMs := OVERLAP_MS
  self := "self"
  opts := ⟨15000, true⟩

/-- At noon the day's topic is derived. -/
def sampleStart : List (Event Listening.strokes Int Unit) := [.sync 43200000 fun _ => false]

theorem recovers_sample : Recovered sampleConfig
    ((sampleStart.foldl (act sampleConfig) start).act sampleConfig (.derived true fun _ => false))
    (sampleConfig.want 43200000) :=
  (recovers_iff (Admits.reach .start (.of_forall (fun _ _ => trivial) _ sampleStart)) _ rfl).mpr (by decide)

/-- The derivation fails, and a minute later there is another pass. -/
def missedRun : List (Event Listening.strokes Int Unit) := sampleStart ++ [.derived false fun _ => false, .tick]

theorem day_stays_missed : ¬∀ (s : Rotating Listening.strokes Int Unit) e now,
    Reach (act sampleConfig) (fun _ _ => True) start s → (s.act sampleConfig e).passes = now :: s.passes →
      Recovered sampleConfig (s.act sampleConfig e) (sampleConfig.want now) := by
  intro hall
  have hreach : Reach (act sampleConfig) (fun _ _ => True) start (missedRun.foldl (act sampleConfig) start) :=
    Admits.reach .start (.of_forall (fun _ _ => trivial) _ _)
  have hrec := hall _ (.sync 43260000 fun _ => false) 43260000 hreach rfl
  obtain ⟨i, v, hv, -⟩ := hrec.covers.each 0 (by decide)
  cases hv.1

end Rotating

end EncedoChat.Presence
