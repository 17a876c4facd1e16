import EncedoChat.Lib.Run
import EncedoChat.Queue.Daemon

/-!
# One ping per key and window

The window of a key starts when a delivery is recorded, so a burst is held back only from then on: what was handed to
the hub and is not confirmed yet counts for nothing. A flush that runs goes by the windows of when it began.
-/

namespace EncedoChat.Queue

open Room (Time MsgId Moment Budget)

/-- The recipient and key whose window a message is in. -/
def pair (recipient : String) (key : Option String) : Option (String × String) :=
  (named key).map fun k => (recipient, k)

/-- The entry a flush waits for a room with. -/
def Wait.sends : Wait → Option Qid
  | .entering q _ _ _ => some q
  | _ => none

/-- When a step looks at the clock. -/
def Event.time : Event → Option Time
  | .submit _ _ _ _ now | .presence _ _ now | .tick now | .flush _ now | .resumed _ now | .resumedDirect _ now
  | .ack _ _ now => some now
  | _ => none

/-- A flush goes on that began earlier. -/
def Event.goesOn : Event → Bool
  | .resumed _ _ => true
  | _ => false

namespace Outbox

variable {o : Outbox}

theorem windowOver_iff {recipient key : String} {now everyMs : Time} :
    o.windowOver recipient key now everyMs = true ↔
      ∀ last, o.lastSent.get (recipient, key) = some last → everyMs ≤ now - last := by
  rw [windowOver]
  cases o.lastSent.get (recipient, key) <;> simp

theorem windowOver_of_not_throttled {recipient : String} {key : Option String} {now : Time} {p : String × String}
    (h : o.throttled recipient key now = false) (hp : pair recipient key = some p) :
    o.windowOver p.1 p.2 now DEFAULT_EVERY_MS = true := by
  obtain ⟨k, hk, rfl⟩ := Option.map_eq_some_iff.mp hp
  simpa [throttled, hk] using h

theorem windowOver_of_due {recipient : String} {now : Time} {e : Entry} {p : String × String}
    (he : e ∈ o.due recipient now) (hp : pair recipient e.key = some p) :
    o.windowOver p.1 p.2 now DEFAULT_EVERY_MS = true := by
  obtain ⟨k, hk, rfl⟩ := Option.map_eq_some_iff.mp hp
  rw [due, List.mem_insertionSort, List.mem_filter, hk] at he
  exact he.2

theorem get_went (o : Outbox) (recipient : String) (key : Option String) (now : Time) (p : String × String) :
    (o.went recipient key now).lastSent.get p =
      if pair recipient key = some p then some now else o.lastSent.get p := by
  rw [went, pair]
  cases named key with
  | none => rfl
  | some k => simp only [OrdMap.get_set, Option.map_some, Option.some.injEq, eq_comm]

theorem get_delivered (o : Outbox) (e : Entry) (now : Time) (p : String × String) :
    (o.delivered e now).lastSent.get p =
      if pair e.recipient e.key = some p then some now else o.lastSent.get p := get_went ..

@[simp] theorem lastSent_add (o : Outbox) (recipient : String) (text : Text) (now : Time) (ttlMs : Option Time)
    (key : Option String) : (o.add recipient text now ttlMs key).1.lastSent = o.lastSent := by
  rw [add]
  split <;> rfl

end Outbox

namespace Daemon

variable (d : Daemon)

/-- What a flush hands to the hub when a step takes it from `d` to `d'`. -/
def comesTo (d' : Daemon) (recipient : String) : Option (String × String) :=
  if (d.flushes.get recipient).bind Wait.sends = none then do
    let q ← (d'.flushes.get recipient).bind Wait.sends
    let e ← d.outbox.cells.get q
    pair recipient e.key
  else none

/-- The recipient and key of a message that a step hands to the hub as new. -/
def hands : Event → Option (String × String)
  | .submit recipient _ key _ now =>
    if recipient ∈ d.online ∧ d.outbox.throttled recipient key now = false ∧ d.outbox.due recipient now = [] then
      pair recipient key
    else none
  | .presence recipient online now => d.comesTo (d.presence recipient online now) recipient
  | .flush recipient now => d.comesTo (d.flush recipient now) recipient
  | .resumed recipient now => d.comesTo (d.resumed recipient now) recipient
  | _ => none

/-- The entry that the listener takes out when it hears of a message. -/
def hears (id : MsgId) : Option Entry := do
  let f ← d.inflight.get id
  d.outbox.all.find? (fun e => e.qid = f.qid)

/-- The recipient and key of which a step records a delivery. -/
def records : Event → Option (String × String)
  | .resumed recipient _ =>
    match d.flushes.get recipient with
    | some (.settled q _ _ true) => (d.outbox.cells.get q).bind fun e => pair e.recipient e.key
    | _ => none
  | .resumedDirect nr _ =>
    match d.directs.get nr with
    | some ⟨recipient, _, key, _, _, .settled _ true⟩ => pair recipient key
    | _ => none
  | .ack recipient ref _ =>
    if d.inTime recipient ref then (d.hears ref).bind fun e => pair e.recipient e.key else none
  | _ => none

variable {L : Budget} {d}

theorem get_heard (d : Daemon) (id : MsgId) (now : Time) (p : String × String) :
    (d.heard id now).outbox.lastSent.get p =
      if (d.hears id).bind (fun e => pair e.recipient e.key) = some p then some now
      else d.outbox.lastSent.get p := by
  rw [heard, hears]
  cases hf : d.inflight.get id with
  | none => rfl
  | some f =>
      obtain he | ⟨e, he⟩ := Option.eq_none_or_eq_some (d.outbox.all.find? (fun e => e.qid = f.qid))
      · simp [he]
      · simpa [he] using Outbox.get_delivered d.outbox e now p

/-- A step that leaves the queue as it was records nothing. -/
theorem get_of_outbox {d' : Daemon} (h : d'.outbox = d.outbox) (t : Option Time) (p : String × String) :
    d'.outbox.lastSent.get p = if (none : Option (String × String)) = some p then t else d.outbox.lastSent.get p := by
  rw [h, if_neg (Option.some_ne_none p).symm]

theorem get_resumed (d : Daemon) (recipient : String) (now : Time) (p : String × String) :
    (d.resumed recipient now).outbox.lastSent.get p =
      if d.records (.resumed recipient now) = some p then some now else d.outbox.lastSent.get p := by
  rw [records]
  cases hw : d.flushes.get recipient with
  | none => exact get_of_outbox (by rw [resumed_none now hw]) ..
  | some w =>
      by_cases hs : ∃ q id rest, w = .settled q id rest true
      · obtain ⟨q, id, rest, rfl⟩ := hs
        rw [resumed, hw]
        obtain he | ⟨e, he⟩ := Option.eq_none_or_eq_some (d.outbox.cells.get q)
        · simp [he, wait]
        · simpa [he, wait] using Outbox.get_delivered d.outbox e now p
      · have hout : (d.resumed recipient now).outbox = d.outbox := by
          obtain h | h := flushed_resumed now hw fun q id rest hq => hs ⟨q, id, rest, hq⟩
          · rw [h]
          · exact h.outbox
        split
        · rename_i q id rest heq
          exact absurd ⟨q, id, rest, Option.some.inj heq⟩ hs
        · exact get_of_outbox hout ..

theorem get_resumedDirect (d : Daemon) (nr : Nat) (now : Time) (p : String × String) :
    (d.resumedDirect nr now).1.outbox.lastSent.get p =
      if d.records (.resumedDirect nr now) = some p then some now else d.outbox.lastSent.get p := by
  rw [records, resumedDirect]
  cases d.directs.get nr with
  | none => rfl
  | some x =>
      obtain ⟨recipient, text, key, ttlMs, at', sending⟩ := x
      cases sending with
      | entering | confirming => rfl
      | settled id ok =>
          cases ok with
          | true => exact Outbox.get_went ..
          | false => exact congrArg (fun m => OrdMap.get m p) (Outbox.lastSent_add ..)

theorem get_ack (d : Daemon) (recipient : String) (ref : MsgId) (now : Time) (p : String × String) :
    (d.ack recipient ref now).1.outbox.lastSent.get p =
      if d.records (.ack recipient ref now) = some p then some now else d.outbox.lastSent.get p := by
  rw [records]
  cases ht : d.inTime recipient ref with
  | true =>
      obtain ⟨room, hack⟩ := ack_inTime now ht
      rw [hack, if_pos rfl]
      exact get_heard ((d.setRoom recipient room).answer ref true) ref now p
  | false =>
      obtain ⟨room, hack⟩ := ack_late now ht
      rw [hack]
      rfl

/-- A window starts where a delivery is recorded, and nowhere else. -/
theorem get_act (d : Daemon) (a : Event) (p : String × String) :
    (d.act L a).1.outbox.lastSent.get p = if d.records a = some p then a.time else d.outbox.lastSent.get p := by
  cases a with
  | submit recipient body key ttlMs now =>
      simp only [act, submit]
      split
      · rfl
      · exact congrArg (fun m => OrdMap.get m p) (Outbox.lastSent_add ..)
  | presence recipient online now =>
      obtain ⟨l, h | ⟨-, h⟩⟩ := flushed_presence (d := d) recipient online now
      · exact get_of_outbox (by rw [act, h]) ..
      · exact get_of_outbox h.outbox ..
  | flush recipient now =>
      obtain h | ⟨-, h⟩ := flushed_flush (d := d) recipient now
      · exact get_of_outbox (by rw [act, h]) ..
      · exact get_of_outbox h.outbox ..
  | entered recipient newId m =>
      cases hw : d.flushes.get recipient with
      | none => exact get_of_outbox (by rw [act, entered, hw]) ..
      | some w => exact get_of_outbox (flushed_entered newId m hw).outbox ..
  | absent recipient =>
      cases hw : d.flushes.get recipient with
      | none => exact get_of_outbox (by rw [act, absent, hw]) ..
      | some w => exact get_of_outbox (flushed_absent hw).outbox ..
  | failed recipient =>
      cases hw : d.flushes.get recipient with
      | none => exact get_of_outbox (by rw [act, failed, hw]) ..
      | some w => exact get_of_outbox (flushed_failed hw).outbox ..
  | resumed recipient now => exact get_resumed ..
  | enteredDirect nr newId m =>
      apply get_of_outbox
      rw [act, enteredDirect]
      split
      · rfl
      · split <;> rfl
  | resumedDirect nr now => exact get_resumedDirect ..
  | failedDirect nr =>
      apply get_of_outbox
      rw [act, failedDirect]
      split
      · rfl
      · split <;> rfl
  | ack recipient ref now => exact get_ack ..
  | tick now | timeout id | room recipient op => rfl

/-- A flush that goes on hands over something that is ahead of it. -/
theorem sends_goOn {recipient : String} {now : Time} {l : List Qid} {w : Wait} {q : Qid}
    (hw : (d.goOn recipient now l).flushes.get recipient = some w) (hq : w.sends = some q) : q ∈ l := by
  induction l with
  | nil =>
      rw [goOn, done, OrdMap.get_delete_self] at hw
      cases hw
  | cons x rest ih =>
      rw [goOn] at hw
      cases he : d.outbox.cells.get x with
      | none =>
          rw [he] at hw
          exact List.mem_cons_of_mem _ (ih hw)
      | some e =>
          rw [he] at hw
          obtain rfl := d.outbox.own x e he
          cases hf : d.flying e.qid with
          | none =>
              simp only [hf, send, wait, OrdMap.get_set_self, Option.some.injEq] at hw
              subst hw
              cases hq
              exact List.mem_cons_self ..
          | some kv =>
              simp only [hf] at hw
              split at hw
              · exact List.mem_cons_of_mem _ (ih hw)
              · rw [wait, OrdMap.get_set_self] at hw
                cases hw
                cases hq

/-- What a flush hands over when it begins has its window over. -/
theorem windowOver_of_flush {recipient : String} {now : Time} {p : String × String}
    (h : d.comesTo (d.flush recipient now) recipient = some p) :
    d.outbox.windowOver p.1 p.2 now DEFAULT_EVERY_MS = true := by
  rw [comesTo] at h
  split at h
  · rename_i hnot
    obtain ⟨q, hq, h⟩ := Option.bind_eq_some_iff.mp h
    obtain ⟨e, he, hp⟩ := Option.bind_eq_some_iff.mp h
    obtain ⟨w, hw, hs⟩ := Option.bind_eq_some_iff.mp hq
    rw [flush] at hw
    split at hw
    · rw [hw, Option.bind_some, hs] at hnot
      cases hnot
    · obtain ⟨x, hx, hxq⟩ := List.mem_map.mp (sends_goOn hw hs)
      have hcell := (Outbox.mem_all.mp (Outbox.due_sub hx).1).2
      rw [hxq, he] at hcell
      cases hcell
      exact Outbox.windowOver_of_due hx hp
  · cases h

theorem windowOver_of_presence {recipient : String} {online : Bool} {now : Time} {p : String × String}
    (h : d.comesTo (d.presence recipient online now) recipient = some p) :
    d.outbox.windowOver p.1 p.2 now DEFAULT_EVERY_MS = true := by
  -- a flush that does not start leaves what the flushes wait for
  have idle : ∀ d' : Daemon, d'.flushes = d.flushes → d.comesTo d' recipient ≠ some p := by
    intro d' hd' hsome
    rw [comesTo] at hsome
    split at hsome
    · rename_i hnot
      rw [hd', hnot] at hsome
      cases hsome
    · cases hsome
  rw [presence] at h
  split at h
  · split at h
    · exact absurd h (idle d rfl)
    · exact windowOver_of_flush (d := { d with online := d.online ++ [recipient] }) h
  · exact absurd h (idle _ rfl)

/-- What the queue looks at before it hands a message over. -/
theorem windowOver_of_hands {a : Event} {p : String × String} (h : d.hands a = some p) (hgo : a.goesOn = false) :
    ∃ now, a.time = some now ∧ d.outbox.windowOver p.1 p.2 now DEFAULT_EVERY_MS = true := by
  cases a with
  | submit recipient body key ttlMs now =>
      rw [hands] at h
      split at h
      · rename_i hnow
        exact ⟨now, rfl, Outbox.windowOver_of_not_throttled hnow.2.1 h⟩
      · cases h
  | presence recipient online now => exact ⟨now, rfl, windowOver_of_presence h⟩
  | flush recipient now => exact ⟨now, rfl, windowOver_of_flush h⟩
  | resumed => cases hgo
  | tick | entered | absent | failed | enteredDirect | resumedDirect | failedDirect | timeout | ack | room => cases h

end Daemon

/-- A message with a key that was handed to the hub as new, and whether a delivery of that key was recorded since. -/
structure Handed where
  pair : String × String
  time : Time
  recorded : Bool

/-- The daemon with the clock and what it handed to the hub, newest first. -/
structure Paced where
  daemon : Daemon
  clock : Time
  handed : List Handed

namespace Paced

def start (l : Loaded) (online : List String) (rooms : String → Room.Outbox String) (clock : Time) : Paced :=
  ⟨(World.start l online rooms).daemon, clock, []⟩

/-- The time of a step. -/
def now (w : Paced) (a : Event) : Time := a.time.getD w.clock

def step (L : Budget) (w : Paced) (a : Event) : Paced where
  daemon := (w.daemon.act L a).1
  clock := w.now a
  handed := ((w.daemon.hands a).map fun p => ⟨p, w.now a, false⟩).toList ++
    w.handed.map fun h => if w.daemon.records a = some h.pair then { h with recorded := true } else h

/-- The clock does not go back. -/
def Clocked (w : Paced) (a : Event) : Prop := w.clock ≤ w.now a

/-- No message of a key is handed over while one of less than a window ago has no delivery recorded; and where the
flush that hands it over began earlier, the key's window is over now. -/
def Meets (w : Paced) (a : Event) : Prop :=
  ∀ p ∈ w.daemon.hands a,
    (∀ h ∈ w.handed, h.pair = p → h.recorded = false → DEFAULT_EVERY_MS ≤ w.now a - h.time) ∧
    (a.goesOn = true → w.daemon.outbox.windowOver p.1 p.2 (w.now a) DEFAULT_EVERY_MS = true)

instance (w : Paced) (a : Event) : Decidable (w.Clocked a) := by
  unfold Clocked
  infer_instance

instance (w : Paced) (a : Event) : Decidable (w.Meets a) := by
  unfold Meets
  infer_instance

/-- In every window at most one message of a recipient and key is handed over. -/
def OnePing (w : Paced) : Prop :=
  ∀ (p : String × String) (t : Time),
    (w.handed.filter (fun h => h.pair = p ∧ t ≤ h.time ∧ h.time < t + DEFAULT_EVERY_MS)).length ≤ 1

/-- Two messages of a pair are a window apart. -/
def Apart (newer older : Handed) : Prop := newer.pair = older.pair → DEFAULT_EVERY_MS ≤ newer.time - older.time

structure Inv (w : Paced) : Prop where
  past : ∀ h ∈ w.handed, h.time ≤ w.clock
  /-- a delivery that was recorded has started the window -/
  recorded : ∀ h ∈ w.handed, h.recorded = true →
    ∃ last, w.daemon.outbox.lastSent.get h.pair = some last ∧ h.time ≤ last
  apart : w.handed.Pairwise Apart

variable {L : Budget} {w : Paced}

theorem Inv.start (l : Loaded) (online : List String) (rooms : String → Room.Outbox String) (clock : Time) :
    Inv (start l online rooms clock) where
  past := fun _ hh => nomatch hh
  recorded := fun _ hh => nomatch hh
  apart := .nil

/-- What is recorded is recorded at a time that has come. -/
theorem time_of_records {a : Event} {p : String × String} (h : w.daemon.records a = some p) :
    a.time = some (w.now a) := by
  cases a with
  | resumed | resumedDirect | ack => rfl
  | submit | presence | tick | flush | entered | absent | failed | enteredDirect | failedDirect | timeout | room =>
      cases h

/-- What is handed over in a step is a window after whatever was handed over before. -/
theorem Inv.spaced (h : Inv w) {a : Event} {p : String × String} (hmeets : w.Meets a)
    (hp : w.daemon.hands a = some p) {x : Handed} (hx : x ∈ w.handed) (hpair : x.pair = p) :
    DEFAULT_EVERY_MS ≤ w.now a - x.time := by
  obtain ⟨hopen, hgo⟩ := hmeets p hp
  cases hrec : x.recorded with
  | false => exact hopen x hx hpair hrec
  | true =>
      obtain ⟨last, hlast, hle⟩ := h.recorded x hx hrec
      have hover : w.daemon.outbox.windowOver p.1 p.2 (w.now a) DEFAULT_EVERY_MS = true := by
        cases hg : a.goesOn with
        | true => exact hgo hg
        | false =>
            obtain ⟨t, ht, hover⟩ := Daemon.windowOver_of_hands hp hg
            rwa [Paced.now, ht]
      calc DEFAULT_EVERY_MS ≤ w.now a - last := Outbox.windowOver_iff.mp hover last (hpair ▸ hlast)
        _ ≤ w.now a - x.time := Int.sub_le_sub_left hle _

theorem Inv.step (h : Inv w) {a : Event} (hclock : w.Clocked a) (hmeets : w.Meets a) : Inv (w.step L a) := by
  -- an older message is as it was, or marked
  have old : ∀ y ∈ (w.handed.map fun h => if w.daemon.records a = some h.pair then { h with recorded := true } else h),
      ∃ x ∈ w.handed, y.pair = x.pair ∧ y.time = x.time ∧
        (y.recorded = true → x.recorded = true ∨ w.daemon.records a = some x.pair) := by
    intro y hy
    obtain ⟨x, hx, rfl⟩ := List.mem_map.mp hy
    refine ⟨x, hx, ?_⟩
    split
    · rename_i hrec
      exact ⟨rfl, rfl, fun _ => .inr hrec⟩
    · exact ⟨rfl, rfl, .inl⟩
  constructor
  · intro y hy
    obtain hy | hy := List.mem_append.mp hy
    · obtain ⟨p, -, rfl⟩ := Option.map_eq_some_iff.mp (Option.mem_toList.mp hy)
      exact le_rfl
    · obtain ⟨x, hx, -, htime, -⟩ := old y hy
      exact htime ▸ (h.past x hx).trans hclock
  · intro y hy hrec
    obtain hy | hy := List.mem_append.mp hy
    · obtain ⟨p, -, rfl⟩ := Option.map_eq_some_iff.mp (Option.mem_toList.mp hy)
      cases hrec
    · obtain ⟨x, hx, hpair, htime, hold⟩ := old y hy
      rw [hpair, htime, Paced.step, Daemon.get_act]
      by_cases hr : w.daemon.records a = some x.pair
      · rw [if_pos hr, time_of_records hr]
        exact ⟨_, rfl, (h.past x hx).trans hclock⟩
      · rw [if_neg hr]
        exact h.recorded x hx ((hold hrec).resolve_right hr)
  · rw [Paced.step, List.pairwise_append]
    refine ⟨?_, ?_, ?_⟩
    · cases w.daemon.hands a <;> simp
    · rw [List.pairwise_map]
      exact h.apart.imp fun hxy => by
        unfold Apart at hxy ⊢
        split <;> split <;> exact hxy
    · intro y hy z hz hpair
      obtain ⟨p, hp, rfl⟩ := Option.map_eq_some_iff.mp (Option.mem_toList.mp hy)
      obtain ⟨x, hx, hxpair, htime, -⟩ := old z hz
      rw [htime]
      exact h.spaced hmeets hp hx (hxpair.symm.trans hpair.symm)

theorem Inv.onePing (h : Inv w) : w.OnePing := by
  intro p t
  have hsub := h.apart.sublist (List.filter_sublist (p := fun h =>
    decide (h.pair = p ∧ t ≤ h.time ∧ h.time < t + DEFAULT_EVERY_MS)))
  match hl : w.handed.filter (fun h => decide (h.pair = p ∧ t ≤ h.time ∧ h.time < t + DEFAULT_EVERY_MS)) with
  | [] => rw [hl]; exact Nat.zero_le 1
  | [x] => rw [hl]; exact le_rfl
  | x :: y :: rest =>
      have mem : ∀ z ∈ x :: y :: rest, z.pair = p ∧ t ≤ z.time ∧ z.time < t + DEFAULT_EVERY_MS := fun z hz => by
        rw [← hl, List.mem_filter, decide_eq_true_eq] at hz
        exact hz.2
      have hx := mem x (by simp)
      have hy := mem y (by simp)
      rw [hl, List.pairwise_cons] at hsub
      have hapart : DEFAULT_EVERY_MS ≤ x.time - y.time := hsub.1 y (by simp) (hx.1.trans hy.1.symm)
      have hlt : x.time - y.time < DEFAULT_EVERY_MS :=
        Int.sub_left_lt_of_lt_add (hx.2.2.trans_le (Int.add_le_add_right hy.2.1 _))
      exact absurd hapart (Int.not_le.mpr hlt)

/-- In every run in which nothing is handed over while something of its key is out unconfirmed, a burst is one ping. -/
theorem burst_one_ping (L : Budget) (l : Loaded) (online : List String) (rooms : String → Room.Outbox String)
    (clock : Time) (w : Paced)
    (h : Reach (step L) (fun w a => w.Clocked a ∧ w.Meets a) (start l online rooms clock) w) : w.OnePing :=
  (h.invariant (Inv.start l online rooms clock) fun _ _ hi hok => hi.step hok.1 hok.2).onePing

theorem texts_nil : ∀ e ∈ ([] : List Entry), e.text.nr < 0 := List.forall_mem_nil _

/-- A daemon with an empty queue and the admin online. -/
def fresh : Paced := start ⟨[], List.nodup_nil, 0, texts_nil⟩ ["admin"] (fun _ => .empty) 0

/-- An alert goes out and is confirmed; another of its key waits for the end of the window, swallows a third, and goes
out with the next flush. -/
def paced : List Event :=
  [.submit "admin" "login failed" (some "ssh") none 1000, .enteredDirect 0 [1] ⟨1001, true, false⟩,
    .ack "admin" [1] 1100, .resumedDirect 0 1101, .submit "admin" "login failed" (some "ssh") none 2000,
    .flush "admin" 2001, .submit "admin" "login failed" (some "ssh") none 3000, .flush "admin" 62000]

theorem paced_one_ping : (paced.foldl (step {}) fresh).OnePing ∧
    (paced.foldl (step {}) fresh).handed.map Handed.time = [62000, 1000] :=
  ⟨burst_one_ping {} _ _ _ _ _ (Admits.reach .start (by decide)), by decide⟩

/-- Two alerts of one key come before either is confirmed. -/
def burst : List Event :=
  [.submit "admin" "login failed" (some "ssh") none 1000, .submit "admin" "login failed" (some "ssh") none 1000]

/-- Both are handed to the hub at once. -/
theorem burst_many_pings : ¬ ∀ (L : Budget) (l : Loaded) (online : List String)
    (rooms : String → Room.Outbox String) (clock : Time) (w : Paced),
    Reach (step L) Clocked (start l online rooms clock) w → w.OnePing := by
  intro h
  have hrun : Reach (step {}) Clocked fresh (burst.foldl (step {}) fresh) := Admits.reach .start (by decide)
  exact absurd (h {} _ _ _ _ _ hrun ("admin", "ssh") 1000) (by decide)

end Paced

end EncedoChat.Queue
