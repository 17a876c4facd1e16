import EncedoChat.Queue.Outbox

/-!
# The daemon's queue and its hub

`queue.ts` with `send`, `resend` and `room` of `hub.ts`. What a function does between two of its `await`s is one step;
a save is waited for and not looked into.
-/

namespace EncedoChat.Queue

open Room (Time MsgId Moment Budget)

def RESEND_AFTER_MS : Time := 60000

def LOST_AFTER_MS : Time := 10 * 60000

/-- What is in flight: the entry it carries, since when, or since the last re-send. -/
structure Flight where
  qid : Qid
  recipient : String
  since : Time
  first : Time

/-- Where a running flush waits, with what is still ahead of it. -/
inductive Wait where
  /-- for the room, to re-send -/
  | resending (q : Qid) (id : MsgId) (first t : Time) (rest : List Qid)
  /-- for what the room said to that -/
  | resent (q : Qid) (id : MsgId) (first t : Time) (rest : List Qid) (again : Bool)
  /-- for the room, to send -/
  | entering (q : Qid) (what : Text) (said : String) (rest : List Qid)
  /-- for the recipient's confirmation -/
  | confirming (q : Qid) (id : MsgId) (rest : List Qid)
  /-- for the answer of `waitFor`, which is known -/
  | settled (q : Qid) (id : MsgId) (rest : List Qid) (ok : Bool)
  /-- for the disk -/
  | saving (rest : List Qid)

/-- Where a submission that is sent at once waits. -/
inductive Sending where
  | entering
  | confirming (id : MsgId)
  | settled (id : MsgId) (ok : Bool)

structure Direct where
  recipient : String
  text : Text
  key : Option String
  ttlMs : Option Time
  now : Time
  sending : Sending

structure Daemon where
  outbox : Outbox
  inflight : OrdMap MsgId Flight
  /-- the flushes that run, by recipient -/
  flushes : OrdMap String Wait
  directs : OrdMap Nat Direct
  online : List String
  rooms : String → Room.Outbox String
  /-- the number of submissions -/
  next : Nat

/-- What can be seen of a step. -/
inductive Note where
  /-- a submission is taken -/
  | accepted (text : Text) (recipient : String) (key : Option String)
  /-- a text goes to the room as a new message, for an entry or at once -/
  | sent (id : MsgId) (text : Text) (entry : Option Qid)
  /-- the room hears that the recipient has a message -/
  | confirmed (id : MsgId)
  /-- the log names a text that is given up -/
  | reported (text : Text)
  deriving DecidableEq

/-- What else happens in a room. -/
inductive RoomOp where
  | send (id : MsgId) (body : String) (m : Moment)
  | fire (timer : Nat) (m : Moment)
  | session (m : Moment)
  | flushPending (m : Moment)

inductive Event where
  | submit (recipient body : String) (key : Option String) (ttlMs : Option Time) (now : Time)
  | presence (recipient : String) (online : Bool) (now : Time)
  | tick (now : Time)
  | flush (recipient : String) (now : Time)
  /-- the room a flush waits for is there -/
  | entered (recipient : String) (newId : MsgId) (m : Moment)
  /-- the contact a flush would re-send to is not there any more -/
  | absent (recipient : String)
  /-- a flush goes on with what it waited for -/
  | resumed (recipient : String) (now : Time)
  /-- what a flush waits for fails -/
  | failed (recipient : String)
  /-- the room a submission waits for is there -/
  | enteredDirect (nr : Nat) (newId : MsgId) (m : Moment)
  | resumedDirect (nr : Nat) (now : Time)
  | failedDirect (nr : Nat)
  /-- nobody confirmed the message in time -/
  | timeout (id : MsgId)
  | ack (recipient : String) (ref : MsgId) (now : Time)
  | room (recipient : String) (op : RoomOp)

/-- `waiters.get(id)?.(…)`, where a flush waits. -/
def Wait.answer (id : MsgId) (ok : Bool) : Wait → Wait
  | .confirming q id' rest => if id' = id then .settled q id rest ok else .confirming q id' rest
  | w => w

def Sending.answer (id : MsgId) (ok : Bool) : Sending → Sending
  | .confirming id' => if id' = id then .settled id ok else .confirming id'
  | s => s

namespace Daemon

variable (L : Budget) (d : Daemon)

def setRoom (recipient : String) (room : Room.Outbox String) : Daemon :=
  { d with rooms := fun r => if r = recipient then room else d.rooms r }

def wait (recipient : String) (w : Wait) : Daemon := { d with flushes := d.flushes.set recipient w }

def done (recipient : String) : Daemon := { d with flushes := d.flushes.delete recipient }

def fly (id : MsgId) (q : Qid) (recipient : String) (now : Time) : Daemon :=
  { d with inflight := d.inflight.set id ⟨q, recipient, now, now⟩ }

def flying (q : Qid) : Option (MsgId × Flight) := d.inflight.entries.find? (fun kv => kv.2.qid = q)

/-- `this.hub.send(pub, outgoingText(e), …)`, up to the room. -/
def send (recipient : String) (e : Entry) (rest : List Qid) : Daemon :=
  d.wait recipient (.entering e.qid e.text (outgoingText e) rest)

/-- The loop of `flush`, up to its next wait or its end. -/
def goOn (recipient : String) (now : Time) : List Qid → Daemon
  | [] => d.done recipient
  | q :: rest =>
    match d.outbox.cells.get q with
    | none => goOn recipient now rest
    | some e =>
      match d.flying q with
      | none => d.send recipient e rest
      | some (id, rec) =>
        if now - rec.since < RESEND_AFTER_MS then goOn recipient now rest
        else d.wait recipient (.resending q id rec.first now rest)

def flush (recipient : String) (now : Time) : Daemon :=
  if d.flushes.has recipient then d else d.goOn recipient now ((d.outbox.due recipient now).map Entry.qid)

/-- `rec.since = t` -/
def resent (id : MsgId) (t : Time) : Daemon :=
  match d.inflight.get id with
  | none => d
  | some f => { d with inflight := d.inflight.set id { f with since := t } }

def entered (recipient : String) (newId : MsgId) (m : Moment) : Daemon × List Note :=
  match d.flushes.get recipient with
  | some (.resending q id first t rest) =>
    let r := (d.rooms recipient).resend L id m
    -- the room says `true` exactly when it sends something
    ((d.setRoom recipient r.1).wait recipient (.resent q id first t rest (!r.2.isEmpty)), [])
  | some (.entering q what said rest) =>
    let d := d.setRoom recipient ((d.rooms recipient).send L newId said m).1
    (d.wait recipient (.confirming q newId rest), [.sent newId what (some q)])
  | _ => (d, [])

def absent (recipient : String) : Daemon :=
  match d.flushes.get recipient with
  | some (.resending q id first t rest) => d.wait recipient (.resent q id first t rest false)
  | some (.entering _ _ _ _) => d.done recipient
  | _ => d

def resumed (recipient : String) (now : Time) : Daemon :=
  match d.flushes.get recipient with
  | some (.resent q id first t rest again) =>
    if again then (d.resent id t).goOn recipient now rest
    -- still trying, or the room does not know the message any more
    else if t - first < LOST_AFTER_MS then d.goOn recipient now rest
    else
      let d := { d with inflight := d.inflight.delete id }
      match d.outbox.cells.get q with
      | none => d.goOn recipient now rest
      | some e => d.send recipient e rest
  | some (.settled q id rest ok) =>
    if ok then
      match d.outbox.cells.get q with
      | none => d.wait recipient (.saving rest)
      | some e => { d with outbox := d.outbox.delivered e now }.wait recipient (.saving rest)
    else (d.fly id q recipient now).done recipient
  | some (.saving rest) => d.goOn recipient now rest
  | _ => d

def failed (recipient : String) : Daemon :=
  match d.flushes.get recipient with
  | some (.resending _ _ _ _ _) | some (.entering _ _ _ _) | some (.saving _) => d.done recipient
  | _ => d

def submit (recipient body : String) (key : Option String) (ttlMs : Option Time) (now : Time) : Daemon × List Note :=
  let text : Text := ⟨body, d.next⟩
  if recipient ∈ d.online ∧ d.outbox.throttled recipient key now = false ∧ d.outbox.due recipient now = [] then
    ({ d with
      next := d.next + 1
      directs := d.directs.set text.nr ⟨recipient, text, key, ttlMs, now, .entering⟩ }, [])
  else
    let r := d.outbox.add recipient text now ttlMs key
    ({ d with next := d.next + 1, outbox := r.1 },
      .accepted text recipient key :: r.2.dropped.map (fun e => .reported e.text))

def enteredDirect (nr : Nat) (newId : MsgId) (m : Moment) : Daemon × List Note :=
  match d.directs.get nr with
  | none => (d, [])
  | some x =>
    match x.sending with
    | .entering =>
      let d := d.setRoom x.recipient ((d.rooms x.recipient).send L newId x.text.body m).1
      ({ d with directs := d.directs.set nr { x with sending := .confirming newId } }, [.sent newId x.text none])
    | _ => (d, [])

/-- What was not confirmed in time is queued as in flight; what the cap drops then is not said. -/
def resumedDirect (nr : Nat) (now : Time) : Daemon × List Note :=
  match d.directs.get nr with
  | none => (d, [])
  | some x =>
    match x.sending with
    | .settled id ok =>
      let d := { d with directs := d.directs.delete nr }
      if ok then
        ({ d with outbox := d.outbox.went x.recipient x.key now }, [.accepted x.text x.recipient x.key])
      else
        let r := d.outbox.add x.recipient x.text x.now x.ttlMs x.key
        ({ d with outbox := r.1 }.fly id r.2.entry x.recipient now, [.accepted x.text x.recipient x.key])
    | _ => (d, [])

def failedDirect (nr : Nat) : Daemon :=
  match d.directs.get nr with
  | none => d
  | some x =>
    match x.sending with
    | .entering => { d with directs := d.directs.delete nr }
    | _ => d

/-- `waiters.get(id)?.(…)` -/
def answer (id : MsgId) (ok : Bool) : Daemon :=
  { d with
    flushes := d.flushes.map (fun _ w => w.answer id ok)
    directs := d.directs.map (fun _ x => { x with sending := x.sending.answer id ok }) }

/-- The listener of `load` hears that a message was delivered. -/
def heard (id : MsgId) (now : Time) : Daemon :=
  match d.inflight.get id with
  | none => d
  | some f =>
    let d := { d with inflight := d.inflight.delete id }
    match d.outbox.all.find? (fun e => e.qid = f.qid) with
    | none => d
    | some e => { d with outbox := d.outbox.delivered e now }

/-- The room has not given the message up. -/
def inTime (recipient : String) (ref : MsgId) : Bool :=
  (d.rooms recipient).parked.has ref || (d.rooms recipient).pending.has ref

/-- `dispatch` of an acknowledgement; the hub hears of one in time, and of a late one nobody does. -/
def ack (recipient : String) (ref : MsgId) (now : Time) : Daemon × List Note :=
  let r := (d.rooms recipient).ack ref now
  let d := d.setRoom recipient r.1
  match r.2 with
  | .onDelivered id _ :: _ => ((d.answer id true).heard id now, [.confirmed id])
  | .onLateDelivered id _ :: _ => (d, [.confirmed id])
  | _ => (d, [])

def presence (recipient : String) (online : Bool) (now : Time) : Daemon :=
  if online then
    if recipient ∈ d.online then d else { d with online := d.online ++ [recipient] }.flush recipient now
  else { d with online := d.online.filter (fun r => r ≠ recipient) }

def tick (now : Time) : Daemon × List Note :=
  let r := d.outbox.expire now
  ({ d with outbox := r.1 }, r.2.map (fun e => .reported e.text))

def roomOp (recipient : String) (op : RoomOp) : Daemon :=
  let o := d.rooms recipient
  d.setRoom recipient (match op with
    | .send id body m => (o.send L id body m).1
    | .fire timer m => (o.fire L timer m).1
    | .session m => (o.onSession L m).1
    | .flushPending m => (o.flushPending L m).1)

def act : Event → Daemon × List Note
  | .submit recipient body key ttlMs now => d.submit recipient body key ttlMs now
  | .presence recipient online now => (d.presence recipient online now, [])
  | .tick now => d.tick now
  | .flush recipient now => (d.flush recipient now, [])
  | .entered recipient newId m => d.entered L recipient newId m
  | .absent recipient => (d.absent recipient, [])
  | .resumed recipient now => (d.resumed recipient now, [])
  | .failed recipient => (d.failed recipient, [])
  | .enteredDirect nr newId m => d.enteredDirect L nr newId m
  | .resumedDirect nr now => d.resumedDirect nr now
  | .failedDirect nr => (d.failedDirect nr, [])
  | .timeout id => (d.answer id false, [])
  | .ack recipient ref now => d.ack recipient ref now
  | .room recipient op => (d.roomOp L recipient op, [])

/-! ## What a flush changes -/

end Daemon

/-- The entries a flush that waits may still send as new. -/
def Wait.ahead : Wait → List Qid
  | .resending q _ first t rest => if t - first < LOST_AFTER_MS then rest else q :: rest
  | .resent q _ first t rest again => if again = true ∨ t - first < LOST_AFTER_MS then rest else q :: rest
  | .entering _ _ _ rest | .confirming _ _ rest | .settled _ _ rest _ | .saving rest => rest

/-- The text a flush is about to send. -/
def Wait.about : Wait → Option Text
  | .entering _ what _ _ => some what
  | _ => none

/-- Where a flush waits after going on with some entries. -/
structure Wait.Within (o : Outbox) (l : List Qid) (w : Wait) : Prop where
  ahead : ∀ q ∈ w.ahead, q ∈ l
  about : ∀ text, w.about = some text → ∃ q ∈ l, ∃ e, o.cells.get q = some e ∧ e.text = text

theorem Wait.Within.mono {o : Outbox} {l l' : List Qid} {w : Wait} (h : w.Within o l) (hsub : ∀ q ∈ l, q ∈ l') :
    w.Within o l' where
  ahead := fun q hq => hsub q (h.ahead q hq)
  about := fun text ht => by
    obtain ⟨q, hq, he⟩ := h.about text ht
    exact ⟨q, hsub q hq, he⟩

namespace Daemon

variable {L : Budget} {d : Daemon}

/-- The flush of one recipient is somewhere else; the queue and what is sent at once are as they were. -/
structure Flushed (recipient : String) (l : List Qid) (d d' : Daemon) : Prop where
  outbox : d'.outbox = d.outbox
  directs : d'.directs = d.directs
  next : d'.next = d.next
  others : ∀ r, r ≠ recipient → d'.flushes.get r = d.flushes.get r
  within : ∀ w, d'.flushes.get recipient = some w → w.Within d.outbox l

theorem flushed_done (recipient : String) (l : List Qid) : Flushed recipient l d (d.done recipient) where
  outbox := rfl
  directs := rfl
  next := rfl
  others := fun r hr => OrdMap.get_delete_ne _ hr
  within := fun w hw => by
    rw [done, OrdMap.get_delete_self] at hw
    cases hw

theorem flushed_wait {recipient : String} {l : List Qid} {w : Wait} (h : w.Within d.outbox l) :
    Flushed recipient l d (d.wait recipient w) where
  outbox := rfl
  directs := rfl
  next := rfl
  others := fun r hr => OrdMap.get_set_ne _ _ hr
  within := fun w' hw' => by
    rw [wait, OrdMap.get_set_self] at hw'
    cases hw'
    exact h

/-- What is in flight and what is in the rooms does not matter. -/
theorem Flushed.of_eq {recipient : String} {l : List Qid} {d₀ d' : Daemon} (h : Flushed recipient l d₀ d')
    (ho : d₀.outbox = d.outbox) (hd : d₀.directs = d.directs) (hn : d₀.next = d.next)
    (hf : d₀.flushes = d.flushes) : Flushed recipient l d d' where
  outbox := h.outbox.trans ho
  directs := h.directs.trans hd
  next := h.next.trans hn
  others := fun r hr => hf ▸ h.others r hr
  within := fun w hw => ho ▸ h.within w hw

theorem Flushed.mono {recipient : String} {l l' : List Qid} {d' : Daemon} (h : Flushed recipient l d d')
    (hsub : ∀ q ∈ l, q ∈ l') : Flushed recipient l' d d' :=
  { h with within := fun w hw => (h.within w hw).mono hsub }

theorem flushed_send {recipient : String} {l rest : List Qid} {q : Qid} {e : Entry}
    (he : d.outbox.cells.get q = some e) (hq : q ∈ l) (hrest : ∀ q ∈ rest, q ∈ l) :
    Flushed recipient l d (d.send recipient e rest) := by
  apply flushed_wait
  exact ⟨hrest, fun text ht => ⟨q, hq, e, he, Option.some.inj ht⟩⟩

theorem flushed_goOn (recipient : String) (now : Time) (l : List Qid) :
    Flushed recipient l d (d.goOn recipient now l) := by
  induction l with
  | nil => exact flushed_done recipient []
  | cons q rest ih =>
      have skip : Flushed recipient (q :: rest) d (d.goOn recipient now rest) :=
        ih.mono fun q hq => List.mem_cons_of_mem _ hq
      rw [goOn]
      cases he : d.outbox.cells.get q with
      | none => exact skip
      | some e =>
          cases hf : d.flying q with
          | none => exact flushed_send he (List.mem_cons_self ..) fun q hq => List.mem_cons_of_mem _ hq
          | some kv =>
              obtain ⟨id, rec⟩ := kv
              by_cases ht : now - rec.since < RESEND_AFTER_MS
              · simp only [if_pos ht]
                exact skip
              · simp only [if_neg ht]
                apply flushed_wait
                refine ⟨fun q' hq' => ?_, fun text ht => nomatch ht⟩
                rw [Wait.ahead] at hq'
                split at hq'
                · exact List.mem_cons_of_mem _ hq'
                · exact hq'

theorem ack_inTime {recipient : String} {ref : MsgId} (now : Time) (h : d.inTime recipient ref = true) :
    ∃ room, d.ack recipient ref now =
      (((d.setRoom recipient room).answer ref true).heard ref now, [.confirmed ref]) := by
  rw [inTime, Bool.or_eq_true] at h
  refine ⟨((d.rooms recipient).ack ref now).1, ?_⟩
  rw [ack, Room.Outbox.ack]
  cases hk : (d.rooms recipient).parked.get ref with
  | some k => rfl
  | none =>
      cases hp : (d.rooms recipient).pending.get ref with
      | some p => rfl
      | none => simp [OrdMap.has, hk, hp] at h

/-- A late confirmation is heard by nobody. -/
theorem ack_late {recipient : String} {ref : MsgId} (now : Time) (h : d.inTime recipient ref = false) :
    ∃ room, d.ack recipient ref now = (d.setRoom recipient room,
      if (d.rooms recipient).firstSentAt.has ref then [.confirmed ref] else []) := by
  rw [inTime, Bool.or_eq_false_iff] at h
  refine ⟨((d.rooms recipient).ack ref now).1, ?_⟩
  rw [ack, Room.Outbox.ack]
  cases hk : (d.rooms recipient).parked.get ref with
  | some k => simp [OrdMap.has, hk] at h
  | none =>
      cases hp : (d.rooms recipient).pending.get ref with
      | some p => simp [OrdMap.has, hp] at h
      | none => cases hs : (d.rooms recipient).firstSentAt.get ref <;> simp [OrdMap.has, hs]

/-- What is heard in time takes an entry out, or nothing. -/
theorem heard_outbox (d : Daemon) (id : MsgId) (now : Time) :
    (d.heard id now).outbox = d.outbox ∨ ∃ f, d.inflight.get id = some f ∧ ∃ e ∈ d.outbox.all, e.qid = f.qid ∧
      (d.heard id now).outbox = d.outbox.delivered e now := by
  rw [heard]
  cases hf : d.inflight.get id with
  | none => exact .inl rfl
  | some f =>
      dsimp only
      cases he : d.outbox.all.find? (fun e => e.qid = f.qid) with
      | none => exact .inl rfl
      | some e =>
          have hq : e.qid = f.qid := by simpa using List.find?_some he
          exact .inr ⟨f, rfl, e, List.mem_of_find?_eq_some he, hq, rfl⟩

/-- What is heard in time of a message in flight takes its entry out. -/
theorem mem_heard {id : MsgId} {now : Time} {e : Entry} (he : e ∈ (d.heard id now).outbox.all) :
    e ∈ d.outbox.all ∧ ∀ f ∈ d.inflight.get id, e.qid ≠ f.qid := by
  rw [heard] at he
  cases hf : d.inflight.get id with
  | none =>
      rw [hf] at he
      exact ⟨he, fun f hf => nomatch hf⟩
  | some f =>
      rw [hf] at he
      dsimp only at he
      simp only [Option.mem_def, Option.some.injEq, forall_eq']
      cases hfind : d.outbox.all.find? (fun e => e.qid = f.qid) with
      | none =>
          rw [hfind] at he
          exact ⟨he, by simpa using List.find?_eq_none.mp hfind e he⟩
      | some x =>
          rw [hfind] at he
          have hq : x.qid = f.qid := by simpa using List.find?_some hfind
          obtain ⟨hin, hne⟩ := Outbox.mem_all_delivered.mp he
          exact ⟨hin, hq ▸ hne⟩

@[simp] theorem flushes_heard (id : MsgId) (now : Time) : (d.heard id now).flushes = d.flushes := by
  rw [heard]
  split
  · rfl
  · dsimp only
    split <;> rfl

@[simp] theorem directs_heard (id : MsgId) (now : Time) : (d.heard id now).directs = d.directs := by
  rw [heard]
  split
  · rfl
  · dsimp only
    split <;> rfl

@[simp] theorem next_heard (id : MsgId) (now : Time) : (d.heard id now).next = d.next := by
  rw [heard]
  split
  · rfl
  · dsimp only
    split <;> rfl

@[simp] theorem cells_heard (id : MsgId) (now : Time) : (d.heard id now).outbox.cells = d.outbox.cells := by
  obtain h | ⟨f, -, e, -, -, h⟩ := d.heard_outbox id now
  · rw [h]
  · rw [h, Outbox.cells_delivered]

theorem flushed_flush (recipient : String) (now : Time) :
    d.flush recipient now = d ∨ d.flushes.get recipient = none ∧
      Flushed recipient ((d.outbox.due recipient now).map Entry.qid) d (d.flush recipient now) := by
  rw [flush]
  by_cases h : d.flushes.has recipient = true
  · exact .inl (if_pos h)
  · rw [if_neg h]
    refine .inr ⟨?_, flushed_goOn ..⟩
    simpa [OrdMap.has] using h

/-- Somebody who comes online is flushed to. -/
theorem flushed_presence (recipient : String) (online : Bool) (now : Time) :
    ∃ l, d.presence recipient online now = { d with online := l } ∨ d.flushes.get recipient = none ∧
      Flushed recipient ((d.outbox.due recipient now).map Entry.qid) d (d.presence recipient online now) := by
  rw [presence]
  split
  · split
    · exact ⟨d.online, .inl rfl⟩
    · refine ⟨d.online ++ [recipient], ?_⟩
      exact (flushed_flush (d := { d with online := d.online ++ [recipient] }) recipient now).imp id
        (fun h => ⟨h.1, h.2.of_eq rfl rfl rfl rfl⟩)
  · exact ⟨_, .inl rfl⟩

@[simp] theorem outbox_resent (id : MsgId) (t : Time) : (d.resent id t).outbox = d.outbox := by
  rw [resent]
  split <;> rfl

@[simp] theorem flushes_resent (id : MsgId) (t : Time) : (d.resent id t).flushes = d.flushes := by
  rw [resent]
  split <;> rfl

@[simp] theorem directs_resent (id : MsgId) (t : Time) : (d.resent id t).directs = d.directs := by
  rw [resent]
  split <;> rfl

@[simp] theorem next_resent (id : MsgId) (t : Time) : (d.resent id t).next = d.next := by
  rw [resent]
  split <;> rfl

/-- A flush that waits on is within what was ahead of it. -/
theorem flushed_self {recipient : String} {w : Wait} (hw : d.flushes.get recipient = some w) (ha : w.about = none) :
    Flushed recipient w.ahead d d where
  outbox := rfl
  directs := rfl
  next := rfl
  others := fun _ _ => rfl
  within := fun w' hw' => by
    rw [hw] at hw'
    cases hw'
    exact ⟨fun q hq => hq, fun text ht => by rw [ha] at ht; cases ht⟩

theorem flushed_entered {recipient : String} {w : Wait} (newId : MsgId) (m : Moment)
    (hw : d.flushes.get recipient = some w) : Flushed recipient w.ahead d (d.entered L recipient newId m).1 := by
  rw [entered, hw]
  cases w with
  | resending q id first t rest =>
      refine (flushed_wait (d := d.setRoom recipient _) ?_).of_eq rfl rfl rfl rfl
      refine ⟨fun q' hq' => ?_, fun text ht => by cases ht⟩
      simp only [Wait.ahead] at hq' ⊢
      split at hq'
      · split
        · exact hq'
        · exact List.mem_cons_of_mem _ hq'
      · rename_i ht
        rw [not_or] at ht
        rw [if_neg ht.2]
        exact hq'
  | entering q what said rest =>
      refine (flushed_wait (d := d.setRoom recipient _) ?_).of_eq rfl rfl rfl rfl
      exact ⟨fun q' hq' => hq', fun text ht => by cases ht⟩
  | resent | confirming | settled | saving => exact flushed_self hw rfl

theorem flushed_absent {recipient : String} {w : Wait} (hw : d.flushes.get recipient = some w) :
    Flushed recipient w.ahead d (d.absent recipient) := by
  rw [absent, hw]
  cases w with
  | resending q id first t rest =>
      apply flushed_wait
      refine ⟨fun q' hq' => ?_, fun text ht => by cases ht⟩
      simpa [Wait.ahead] using hq'
  | entering q what said rest => exact flushed_done recipient _
  | resent | confirming | settled | saving => exact flushed_self hw rfl

theorem flushed_failed {recipient : String} {w : Wait} (hw : d.flushes.get recipient = some w) :
    Flushed recipient w.ahead d (d.failed recipient) := by
  rw [failed, hw]
  cases w with
  | resending | entering | saving => exact flushed_done recipient _
  | resent | confirming | settled => exact flushed_self hw rfl

/-- A flush that was not told of a confirmation takes nothing out of the queue. -/
theorem flushed_resumed {recipient : String} {w : Wait} (now : Time) (hw : d.flushes.get recipient = some w)
    (hno : ∀ q id rest, w ≠ .settled q id rest true) :
    d.resumed recipient now = d ∨ Flushed recipient w.ahead d (d.resumed recipient now) := by
  rw [resumed, hw]
  cases w with
  | resent q id first t rest again =>
      right
      dsimp only
      by_cases ha : again = true
      · rw [if_pos ha, Wait.ahead, if_pos (.inl ha)]
        exact (flushed_goOn recipient now rest).of_eq (outbox_resent ..) (directs_resent ..) (next_resent ..)
          (flushes_resent ..)
      · rw [if_neg ha]
        by_cases ht : t - first < LOST_AFTER_MS
        · rw [if_pos ht, Wait.ahead, if_pos (.inr ht)]
          exact flushed_goOn recipient now rest
        · rw [if_neg ht, Wait.ahead, if_neg (not_or.mpr ⟨ha, ht⟩)]
          cases he : d.outbox.cells.get q with
          | none =>
              exact ((flushed_goOn recipient now rest).mono fun q hq => List.mem_cons_of_mem _ hq).of_eq
                rfl rfl rfl rfl
          | some e =>
              refine (flushed_send (q := q) ?_ ?_ ?_).of_eq rfl rfl rfl rfl
              · exact he
              · exact List.mem_cons_self ..
              · exact fun q hq => List.mem_cons_of_mem _ hq
  | settled q id rest ok =>
      cases ok with
      | true => exact absurd rfl (hno q id rest)
      | false => exact .inr ((flushed_done recipient rest).of_eq rfl rfl rfl rfl)
  | saving rest => exact .inr (flushed_goOn recipient now rest)
  | resending | entering | confirming => exact .inl rfl

/-- A flush that was told of it takes its entry out. -/
theorem resumed_settled {recipient : String} {q : Qid} {id : MsgId} {rest : List Qid} (now : Time)
    (hw : d.flushes.get recipient = some (.settled q id rest true)) :
    ∃ o, d.resumed recipient now = { d with outbox := o }.wait recipient (.saving rest) ∧ o.cells = d.outbox.cells ∧
      ∀ e, e ∈ o.all ↔ e ∈ d.outbox.all ∧ e.qid ≠ q := by
  rw [resumed, hw]
  dsimp only
  rw [if_pos rfl]
  cases he : d.outbox.cells.get q with
  | none =>
      refine ⟨d.outbox, rfl, rfl, fun e => ⟨fun h => ⟨h, ?_⟩, And.left⟩⟩
      rintro rfl
      rw [(Outbox.mem_all.mp h).2] at he
      cases he
  | some e =>
      obtain rfl := d.outbox.own q e he
      exact ⟨_, rfl, Outbox.cells_delivered .., fun x => Outbox.mem_all_delivered⟩

theorem resumed_none {recipient : String} (now : Time) (h : d.flushes.get recipient = none) :
    d.resumed recipient now = d := by
  rw [resumed, h]

end Daemon

/-! ## The daemon with what was seen of it -/

/-- The message that carries a text, when this is the note of it. -/
def Note.carrier (text : Text) : Note → Option MsgId
  | .sent id text' _ => if text' = text then some id else none
  | _ => none

def Note.id : Note → Option MsgId
  | .sent id _ _ => some id
  | .confirmed id => some id
  | _ => none

/-- The messages that carried a text. -/
def carriers (notes : List Note) (text : Text) : List MsgId := notes.filterMap (Note.carrier text)

theorem mem_carriers {notes : List Note} {text : Text} {id : MsgId} :
    id ∈ carriers notes text ↔ ∃ entry, Note.sent id text entry ∈ notes := by
  rw [carriers, List.mem_filterMap]
  constructor
  · rintro ⟨n, hn, hid⟩
    cases n with
    | sent id' text' entry =>
        rw [Note.carrier] at hid
        split at hid
        · rename_i htext
          cases hid
          exact ⟨entry, htext ▸ hn⟩
        · cases hid
    | accepted | confirmed | reported => cases hid
  · rintro ⟨entry, hn⟩
    exact ⟨_, hn, if_pos rfl⟩

/-- The recipient confirmed a message that carried the text. -/
def Acked (notes : List Note) (text : Text) : Prop := ∃ id ∈ carriers notes text, Note.confirmed id ∈ notes

instance (notes : List Note) (text : Text) : Decidable (Acked notes text) := by
  unfold Acked
  infer_instance

theorem Acked.mono {notes : List Note} {text : Text} (more : List Note) (h : Acked notes text) :
    Acked (more ++ notes) text := by
  obtain ⟨id, hid, hconf⟩ := h
  obtain ⟨entry, hsent⟩ := mem_carriers.mp hid
  exact ⟨id, mem_carriers.mpr ⟨entry, List.mem_append_right _ hsent⟩, List.mem_append_right _ hconf⟩

/-- What `load` reads: entries with names of their own, and so many submissions before. -/
structure Loaded where
  entries : List Entry
  names : (entries.map Entry.qid).Nodup
  next : Nat
  texts : ∀ e ∈ entries, e.text.nr < next

structure World where
  daemon : Daemon
  /-- newest first -/
  notes : List Note

namespace World

def start (l : Loaded) (online : List String) (rooms : String → Room.Outbox String) : World where
  daemon := {
    outbox := {
      cells := ⟨l.entries.map (fun e => (e.qid, e)), by simpa [Function.comp_def] using l.names⟩
      own := by
        intro q e he
        obtain ⟨x, -, hx⟩ := List.mem_map.mp (OrdMap.get_eq_some.mp he)
        cases hx
        rfl
      entries := l.entries.map Entry.qid
      lastSent := .empty
      seq := 0 }
    inflight := .empty
    flushes := .empty
    directs := .empty
    online := online
    rooms := rooms
    next := l.next }
  notes := l.entries.map (fun e => .accepted e.text e.recipient e.key)

/-- A daemon that has just started, with an empty queue and nobody online. -/
def fresh : World := start ⟨[], List.nodup_nil, 0, by simp⟩ [] (fun _ => .empty)

theorem mem_all_start {l : Loaded} {online : List String} {rooms : String → Room.Outbox String} {e : Entry} :
    e ∈ (start l online rooms).daemon.outbox.all ↔ e ∈ l.entries := by
  rw [Outbox.mem_all]
  simp only [start, OrdMap.get_eq_some]
  constructor
  · rintro ⟨-, hget⟩
    obtain ⟨x, hx, heq⟩ := List.mem_map.mp hget
    exact (Prod.mk.inj heq).2 ▸ hx
  · intro he
    exact ⟨List.mem_map_of_mem he, List.mem_map_of_mem he⟩

def step (L : Budget) (w : World) (a : Event) : World :=
  ⟨(w.daemon.act L a).1, (w.daemon.act L a).2 ++ w.notes⟩

/-- The random id of a new message is new. -/
def Fair (w : World) : Event → Prop
  | .entered _ newId _ | .enteredDirect _ newId _ => newId ∉ w.notes.filterMap Note.id
  | _ => True

instance (w : World) (a : Event) : Decidable (w.Fair a) := by
  unfold Fair
  split <;> infer_instance

end World

end EncedoChat.Queue
