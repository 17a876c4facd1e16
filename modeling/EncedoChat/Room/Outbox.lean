import EncedoChat.Lib.Bytes
import EncedoChat.Lib.OrdMap

/-!
# What a room still owes its peer

`pending`, `resendable`, `firstSentAt` and `parked` of `lib/room.ts`, the timers that re-send and give up,
and the functions that move a message between the tables. The bytes of an envelope are a type of their own
here; logging is left out.
-/

namespace EncedoChat.Room

/-- A clock reading in milliseconds. -/
abbrev Time := Int

/-- The six random bytes of an envelope's id. -/
abbrev MsgId := List UInt8

structure Budget where
  /-- delays before each re-send -/
  retries : List Time := [1500, 4000, 8000, 15000, 15000]
  giveUpMs : Time := 8000
  maxInflightMs : Time := 60000

def MAX_RESENDABLE : Nat := 50

/-- What the source reads of its surroundings in one turn. -/
structure Moment where
  now : Time
  /-- `peerPresent()` -/
  present : Bool
  /-- content rides the direct channel and may fall back to the relay -/
  direct : Bool

structure Pending (E : Type) where
  /-- which object this is: a timer holds the one it was set for -/
  obj : Nat
  bytes : E
  sentAt : Time
  since : Time
  tries : Nat
  timer : Option Nat

inductive Due where
  | resend
  | giveUp
  deriving DecidableEq

/-- A timer that has not run, with what its closure holds. -/
structure Timer (E : Type) where
  id : MsgId
  obj : Nat
  bytes : E
  sentAt : Time
  due : Due
  delay : Time

structure Parked (E : Type) where
  bytes : E
  sentAt : Time

structure Outbox (E : Type) where
  pending : OrdMap MsgId (Pending E)
  resendable : OrdMap MsgId E
  firstSentAt : OrdMap MsgId Time
  parked : OrdMap MsgId (Parked E)
  timers : OrdMap Nat (Timer E)
  /-- the next object and the next timer -/
  fresh : Nat

/-- What a turn does outside the tables, in order. -/
inductive Effect (E : Type) where
  /-- `void emitContent(bytes)` -/
  | emit (bytes : E)
  | onDelivered (id : MsgId) (ms : Time)
  | onLateDelivered (id : MsgId) (ms : Time)
  | onUndelivered (id : MsgId)
  | onStall
  /-- nothing the source reports: the bound of `resendable` dropped this one -/
  | evicted (id : MsgId)
  deriving DecidableEq

namespace Outbox

variable {E : Type}

def empty : Outbox E := ⟨.empty, .empty, .empty, .empty, .empty, 0⟩

def clearTimeout (o : Outbox E) (timer : Option Nat) : Outbox E :=
  match timer with
  | none => o
  | some t => { o with timers := o.timers.delete t }

def clearPending (o : Outbox E) (id : MsgId) : Outbox E :=
  match o.pending.get id with
  | none => o
  | some p => let o := o.clearTimeout p.timer; { o with pending := o.pending.delete id }

def keepForResend (o : Outbox E) (id : MsgId) (bytes : E) (sentAt : Time) : Outbox E × List (Effect E) :=
  let resendable := o.resendable.set id bytes
  let firstSentAt := o.firstSentAt.set id ((o.firstSentAt.get id).getD sentAt)
  match resendable.keys.head? with
  | some oldest =>
    if resendable.size > MAX_RESENDABLE then
      ({ o with resendable := resendable.delete oldest, firstSentAt := firstSentAt.delete oldest },
        [.evicted oldest])
    else ({ o with resendable := resendable, firstSentAt := firstSentAt }, [])
  -- a map just written to has a first key
  | none => ({ o with resendable := resendable, firstSentAt := firstSentAt }, [])

def park (o : Outbox E) (id : MsgId) (bytes : E) (sentAt : Time) : Outbox E :=
  let parked := o.parked.set id ⟨bytes, sentAt⟩
  match parked.keys.head? with
  | some oldest =>
    if parked.size > MAX_RESENDABLE then { o with parked := parked.delete oldest } else { o with parked := parked }
  | none => { o with parked := parked }

/-- Another re-send is in the budget, and worth making. -/
def keepTrying (L : Budget) (p : Pending E) (m : Moment) : Option Time :=
  match L.retries[p.tries]? with
  | none => none
  | some delay =>
    if m.now - p.since + delay ≤ L.maxInflightMs ∧ (p.tries < 2 ∨ m.present = true) then some delay else none

/-- `p.timer = setTimeout(…)` -/
def setTimer (o : Outbox E) (id : MsgId) (p : Pending E) (due : Due) (delay : Time) : Outbox E :=
  { o with
    pending := o.pending.set id { p with timer := some o.fresh }
    timers := o.timers.set o.fresh ⟨id, p.obj, p.bytes, p.sentAt, due, delay⟩
    fresh := o.fresh + 1 }

def armRetry (L : Budget) (o : Outbox E) (id : MsgId) (m : Moment) : Outbox E :=
  match o.pending.get id with
  | none => o
  | some p =>
    match keepTrying L p m with
    | some delay => o.setTimer id p .resend delay
    | none => o.setTimer id p .giveUp L.giveUpMs

/-- A new entry of `pending`, sent now. -/
def put (o : Outbox E) (id : MsgId) (bytes : E) (sentAt now : Time) : Outbox E :=
  { o with pending := o.pending.set id ⟨o.fresh, bytes, sentAt, now, 0, none⟩, fresh := o.fresh + 1 }

def trackDelivery (L : Budget) (o : Outbox E) (id : MsgId) (bytes : E) (m : Moment) : Outbox E :=
  (o.put id bytes m.now m.now).armRetry L id m

/-- `sendText`, `sendEdit` and `sendFile`, once their envelope is built. -/
def send (L : Budget) (o : Outbox E) (id : MsgId) (bytes : E) (m : Moment) : Outbox E × List (Effect E) :=
  (o.trackDelivery L id bytes m, [.emit bytes])

def resend (L : Budget) (o : Outbox E) (id : MsgId) (m : Moment) : Outbox E × List (Effect E) :=
  match o.resendable.get id with
  | none => (o, [])
  | some bytes =>
    if o.pending.has id then (o, [])
    else (({ o with parked := o.parked.delete id }).trackDelivery L id bytes m, [.emit bytes])

/-- The body of the timer that re-sends; `tries` is counted on the object the timer holds. -/
def resendDue (L : Budget) (o : Outbox E) (t : Timer E) (m : Moment) : Outbox E × List (Effect E) :=
  match o.pending.get t.id with
  | none => (o, [])
  | some p =>
    let p := if p.obj = t.obj then { p with tries := p.tries + 1 } else p
    (({ o with pending := o.pending.set t.id p }).armRetry L t.id m,
      (if p.obj = t.obj ∧ p.tries = 1 ∧ m.direct = true then [.onStall] else []) ++ [.emit t.bytes])

/-- The body of the timer that gives up. -/
def giveUpDue (o : Outbox E) (t : Timer E) (m : Moment) : Outbox E × List (Effect E) :=
  if o.pending.has t.id then
    let o := { o with pending := o.pending.delete t.id }
    let o := if m.present then o else o.park t.id t.bytes t.sentAt
    let r := o.keepForResend t.id t.bytes t.sentAt
    (r.1, r.2 ++ [.onUndelivered t.id])
  else (o, [])

/-- A timer runs. -/
def fire (L : Budget) (o : Outbox E) (timer : Nat) (m : Moment) : Outbox E × List (Effect E) :=
  match o.timers.get timer with
  | none => (o, [])
  | some t =>
    let o := { o with timers := o.timers.delete timer }
    match t.due with
    | .resend => o.resendDue L t m
    | .giveUp => o.giveUpDue t m

/-- One round of the loop of `flushAll`. -/
def flushOne (L : Budget) (m : Moment) (r : Outbox E × List (Effect E)) (id : MsgId) :
    Outbox E × List (Effect E) :=
  match r.1.pending.get id with
  | none => r
  | some p =>
    let o := r.1.clearTimeout p.timer
    (({ o with pending := o.pending.set id { p with tries := 0, since := m.now } }).armRetry L id m,
      r.2 ++ [.emit p.bytes])

def flushAll (L : Budget) (o : Outbox E) (m : Moment) : Outbox E × List (Effect E) :=
  o.pending.keys.foldl (flushOne L m) (o, [])

/-- Parked messages ahead of anything newer. -/
def requeue (o : Outbox E) (now : Time) : Outbox E :=
  let cleared := { o with pending := .empty, parked := .empty }
  let back := o.parked.entries.foldl (fun o e => o.put e.1 e.2.bytes e.2.sentAt now) cleared
  { back with
    pending := o.pending.entries.foldl (fun q e => if q.has e.1 then q else q.set e.1 e.2) back.pending }

def unpark (L : Budget) (o : Outbox E) (m : Moment) : Outbox E × List (Effect E) := (o.requeue m.now).flushAll L m

/-- `flushPending`. -/
def flushPending (L : Budget) (o : Outbox E) (m : Moment) : Outbox E × List (Effect E) :=
  if o.parked.size ≠ 0 then o.unpark L m else o.flushAll L m

/-- What the install of a session does here. -/
def onSession (L : Budget) (o : Outbox E) (m : Moment) : Outbox E × List (Effect E) :=
  if o.parked.size ≠ 0 then o.unpark L m else (o, [])

/-- The two tables a late confirmation is read from. -/
def forget (o : Outbox E) (ref : MsgId) : Outbox E :=
  { o with resendable := o.resendable.delete ref, firstSentAt := o.firstSentAt.delete ref }

/-- `dispatch` of an `ack`. -/
def ack (o : Outbox E) (ref : MsgId) (now : Time) : Outbox E × List (Effect E) :=
  match o.parked.get ref with
  | some k => (({ o with parked := o.parked.delete ref }).forget ref, [.onDelivered ref (now - k.sentAt)])
  | none =>
    match o.pending.get ref with
    | some p => ((o.clearPending ref).forget ref, [.onDelivered ref (now - p.sentAt)])
    | none =>
      match o.firstSentAt.get ref with
      | some sentAt => (o.forget ref, [.onLateDelivered ref (now - sentAt)])
      | none => (o, [])

end Outbox

end EncedoChat.Room
