import EncedoChat.Lib.OrdMap
import EncedoChat.Presence.Rotation

/-!
# Who holds a pair's topic

`watchPresenceRotating` of `lib/presence.ts`, `retarget` and `stop` of `lib/room.ts`, and the session of `lib/core.ts`
that opens rooms and watches over one transport. The transport keeps a set of topics and counts nobody. A call that
awaits stands in `calls`, or in the watch or the room that it makes, and goes on with a later event.
-/

namespace EncedoChat.Presence

/-- What the session derives for a contact, and its options. -/
structure Pairs (P T : Type) where
  /-- `offsetSecFor(peer) * 1000` -/
  offsetMs : P → Int
  overlapMs : Int
  /-- the topic of `pairDay(peer, date)` -/
  pairDay : P → Date → T

def UPGRADE_DATE_TTL : Int := 5 * 60000

structure Room (P T : Type) where
  peer : P
  topic : T
  wasWatched : Bool
  /-- until `stop` -/
  live : Bool
  /-- in `rooms`, until `unregister` -/
  registered : Bool
  /-- `open` has returned it -/
  opened : Bool
  released : Bool
  deriving DecidableEq

structure Watch (P T : Type) where
  peer : P
  /-- `watches`: a day's slot is reserved before its watch is there -/
  slots : OrdMap Date (Option T)
  stopped : Bool
  /-- a `sync` that awaits: the days it wants, the one it derives and those after it -/
  sync : Option (List Date × Date × List Date)

/-- A call of the session at its await. -/
inductive Call (P : Type) where
  /-- `open`: the offset -/
  | opening (peer : P) (pending : Option (Date × Time))
  /-- `open`: the day's keys and the room's -/
  | joining (peer : P) (date : Date) (wasWatched : Bool)
  /-- `leave`: the flush -/
  | leaving (room : Nat)
  /-- `leave`: the room has stopped -/
  | left (room : Nat)
  /-- `watchContacts` between two contacts -/
  | contacts (rest : List P)
  /-- `startWatch`: the offset -/
  | watching (peer : P) (rest : List P)
  /-- `realign`: the offset -/
  | realigning (room : Nat) (peer : P) (date : Option Date)
  /-- `realign`: the day's keys -/
  | moving (room : Nat) (peer : P) (date : Date)
  /-- `shutdown`: the flush -/
  | closing

structure Session (P T : Type) where
  /-- the transport's topics -/
  subscribed : List T
  rooms : List (Room P T)
  watches : List (Watch P T)
  presence : OrdMap P Nat
  roomTopics : OrdMap T Nat
  openConvs : OrdMap P Nat
  upgradeDate : OrdMap P (Date × Time)
  calls : List (Call P)
  closed : Bool
  /-- `node.stop()` -/
  down : Bool

inductive Event (P : Type) where
  | open' (peer : P)
  /-- `openRoom` has returned the room -/
  | opened (room : Nat)
  | leave (room : Nat)
  | watchContacts (contacts : List P)
  | unwatch (peer : P)
  /-- the timer of `realign` -/
  | realign (peer : P)
  /-- a handshake frame on a day's topic -/
  | handshake (watch : Nat) (date : Date) (wall : Time)
  /-- a watch looks at its days -/
  | sync (watch : Nat) (now : Time)
  /-- the keys that a `sync` awaited, or their failure -/
  | derived (watch : Nat) (ok : Bool)
  /-- a call goes on; what it awaited may have failed -/
  | resume (call : Nat) (now wall : Time) (ok : Bool)
  | close

namespace Session

variable {P T : Type} [DecidableEq P] [DecidableEq T] (C : Pairs P T) (s : Session P T)

def start : Session P T := ⟨[], [], [], .empty, .empty, .empty, .empty, [], false, false⟩

/-! ## Topics -/

def subscribe (t : T) : Session P T := { s with subscribed := s.subscribed.insert t }

def unsubscribe (t : T) : Session P T := { s with subscribed := s.subscribed.filter (· ≠ t) }

def holdTopic (t : T) : Session P T := { s with roomTopics := s.roomTopics.set t ((s.roomTopics.get t).getD 0 + 1) }

def releaseTopic (t : T) : Session P T :=
  let n := (s.roomTopics.get t).getD 0 - 1
  { s with roomTopics := if n > 0 then s.roomTopics.set t n else s.roomTopics.delete t }

/-- Is somebody else holding the topic: an open room? -/
def keep (t : T) : Bool := s.roomTopics.has t

/-- `stop` of one day's watch. -/
def dropDay (t : T) : Session P T := if s.keep t then s else s.unsubscribe t

/-! ## Watches -/

/-- `stop` of the watches of these slots. -/
def dropSlots (slots : List (Date × Option T)) : Session P T :=
  slots.foldl (fun s slot => slot.2.elim s s.dropDay) s

/-- `stop`; a hand-off leaves the subscription of one day. -/
def stopRotating (handed : Option Date) (i : Nat) : Session P T :=
  match s.watches[i]? with
  | none => s
  | some w =>
    let s := s.dropSlots (w.slots.entries.filter fun slot => some slot.1 ≠ handed)
    { s with watches := s.watches.set i { w with slots := .empty, stopped := true } }

/-- The end of a `sync`: days that are wanted no more. -/
def prune (i : Nat) (w : Watch P T) (want : List Date) : Session P T :=
  let s := s.dropSlots (w.slots.entries.filter fun slot => slot.1 ∉ want)
  { s with watches := s.watches.set i { w with slots := w.slots.filter fun d _ => d ∈ want } }

/-- The loop of a `sync`, up to the next await. -/
def syncFrom (i : Nat) (w : Watch P T) (want : List Date) : List Date → Session P T
  | [] => s.prune i w want
  | d :: ds =>
    if w.slots.has d then syncFrom i w want ds
    else { s with watches := s.watches.set i { w with slots := w.slots.set d none, sync := some (want, d, ds) } }

def sync (i : Nat) (now : Time) : Session P T :=
  match s.watches[i]? with
  | none => s
  | some w =>
    if w.stopped || w.sync.isSome then s
    else
      let want := activeDatesForOffset now (C.offsetMs w.peer) C.overlapMs
      s.syncFrom i w want want

def derived (i : Nat) (ok : Bool) : Session P T :=
  match s.watches[i]? with
  | none => s
  | some w =>
    match w.sync with
    | none => s
    | some (want, d, ds) =>
      if ok = false then { s with watches := s.watches.set i { w with sync := none } } -- the slot stays reserved
      else if w.stopped then { s with watches := s.watches.set i { w with slots := w.slots.delete d, sync := none } }
      else
        let t := C.pairDay w.peer d
        (s.subscribe t).syncFrom i { w with slots := w.slots.set d (some t), sync := none } want ds

/-- `startWatch`, and the contacts that `watchContacts` still has. -/
def startWatch (peer : P) (rest : List P) : Call P :=
  if s.closed || s.presence.has peer then .contacts rest else .watching peer rest

def addWatch (peer : P) : Session P T :=
  { s with
    watches := s.watches ++ [⟨peer, .empty, false, none⟩]
    presence := s.presence.set peer s.watches.length }

def stopWatch (peer : P) : Session P T :=
  match s.presence.get peer with
  | none => { s with upgradeDate := s.upgradeDate.delete peer }
  | some i =>
    let s := s.stopRotating none i
    { s with presence := s.presence.delete peer, upgradeDate := s.upgradeDate.delete peer }

/-! ## Rooms -/

/-- `joinChat`, and `register`. -/
def joinChat (peer : P) (topic : T) (wasWatched : Bool) : Session P T :=
  let s := s.subscribe topic
  { s with rooms := s.rooms ++ [⟨peer, topic, wasWatched, true, true, false, false⟩] }

def setRoom (i : Nat) (r : Room P T) : Session P T := { s with rooms := s.rooms.set i r }

/-- The room's `stop`. -/
def stopRoom (i : Nat) : Session P T :=
  match s.rooms[i]? with
  | none => s
  | some r => (s.unsubscribe r.topic).setRoom i { r with live := false }

/-- The rest of `open`. -/
def opened (i : Nat) : Session P T :=
  match s.rooms[i]? with
  | none => s
  | some r =>
    if r.opened then s
    else
      let s := (s.holdTopic r.topic).setRoom i { r with opened := true }
      { s with openConvs := s.openConvs.set r.peer i }

def leave (i : Nat) : Session P T :=
  match s.rooms[i]? with
  | none => s
  | some r =>
    if r.opened = false then s
    else
      let s := if r.released then s else
        let s := s.releaseTopic r.topic
        if s.openConvs.get r.peer = some i then { s with openConvs := s.openConvs.delete r.peer } else s
      let s := s.setRoom i { r with released := true, registered := false }
      { s with calls := s.calls ++ [.leaving i] }

def realign (peer : P) (date : Option Date) : Session P T :=
  match s.openConvs.get peer with
  | none => s
  | some i => if s.closed then s else { s with calls := s.calls ++ [.realigning i peer date] }

/-- `retarget`, with `realign`'s bookkeeping. -/
def retarget (i : Nat) (r : Room P T) (topic : T) : Session P T :=
  let s := (((s.subscribe topic).unsubscribe r.topic).setRoom i { r with topic := topic }).releaseTopic r.topic
  s.holdTopic topic

/-- `rooms`, in its order -/
def registered : List Nat := (List.range s.rooms.length).filter fun i => (s.rooms[i]?.map Room.registered).getD false

/-! ## The session -/

def open' (peer : P) : Session P T :=
  { s with
    calls := s.calls ++ [.opening peer (s.upgradeDate.get peer)]
    upgradeDate := s.upgradeDate.delete peer }

/-- The day of a room that opens. -/
def openDate (peer : P) (pending : Option (Date × Time)) (now wall : Time) : Date :=
  match pending with
  | some (date, seen) => if wall - seen < UPGRADE_DATE_TTL then date else rendezvousDay now (C.offsetMs peer)
  | none => rendezvousDay now (C.offsetMs peer)

/-- The light watch hands its topic over. -/
def handOff (peer : P) (now : Time) : Session P T :=
  match s.presence.get peer with
  | none => s
  | some i =>
    let s := s.stopRotating (some (rendezvousDay now (C.offsetMs peer))) i
    { s with presence := s.presence.delete peer }

def handshake (i : Nat) (date : Date) (wall : Time) : Session P T :=
  match s.watches[i]? with
  | none => s
  | some w =>
    if (w.slots.get date).join.isNone then s
    else if s.openConvs.has w.peer then s.realign w.peer (some date)
    else { s with upgradeDate := s.upgradeDate.set w.peer (date, wall) }

def shutdown : Session P T :=
  if s.closed then s
  else
    let s := (s.presence.entries.map Prod.snd).foldl (stopRotating · none) { s with closed := true }
    { s with presence := .empty, upgradeDate := .empty, calls := s.calls ++ [.closing] }

/-- What a call does when it goes on, and the call it then is. -/
def goOn (now wall : Time) (ok : Bool) : Call P → Session P T × Option (Call P)
  | .opening peer pending =>
    if ok then
      (s.handOff C peer now, some (.joining peer (openDate C peer pending now wall) (s.presence.has peer)))
    else (s, none)
  | .joining peer date wasWatched => if ok then (s.joinChat peer (C.pairDay peer date) wasWatched, none) else (s, none)
  | .leaving i => (s.stopRoom i, some (.left i))
  | .left i =>
    match s.rooms[i]? with
    | none => (s, none)
    | some r => if r.wasWatched && !s.closed then (s, some (s.startWatch r.peer [])) else (s, none)
  | .contacts [] => (s, none)
  | .contacts (c :: cs) => (s, some (s.startWatch c cs))
  | .watching peer rest => (if ok then s.addWatch peer else s, some (.contacts rest))
  | .realigning i peer date =>
    if ok then (s, some (.moving i peer (date.getD (rendezvousDay now (C.offsetMs peer))))) else (s, none)
  | .moving i peer date =>
    match s.rooms[i]? with
    | none => (s, none)
    | some r =>
      let topic := C.pairDay peer date
      if ok = false ∨ topic = r.topic ∨ s.openConvs.get peer ≠ some i then (s, none) else (s.retarget i r topic, none)
  | .closing => ({ s.registered.foldl stopRoom s with down := true }, none)

def resume (k : Nat) (now wall : Time) (ok : Bool) : Session P T :=
  match s.calls[k]? with
  | none => s
  | some c =>
    let (s', next) := { s with calls := s.calls.eraseIdx k }.goOn C now wall ok c
    { s' with calls := s'.calls ++ next.toList }

def act : Event P → Session P T
  | .open' peer => s.open' peer
  | .opened i => s.opened i
  | .leave i => s.leave i
  | .watchContacts contacts => { s with calls := s.calls ++ [.contacts contacts] }
  | .unwatch peer => s.stopWatch peer
  | .realign peer => s.realign peer none
  | .handshake i date wall => s.handshake i date wall
  | .sync i now => s.sync C i now
  | .derived i ok => s.derived C i ok
  | .resume k now wall ok => s.resume C k now wall ok
  | .close => s.shutdown

/-- What happens on the transport; after its stop nothing does. -/
def step (a : Event P) : Session P T := if s.down then s else s.act C a

/-! ## Holders -/

/-- A room, or a watch's day. -/
inductive Holder where
  | room (i : Nat)
  | day (w : Nat) (d : Date)
  deriving DecidableEq

/-- The topic that a live holder holds. -/
def holds : Holder → Option T
  | .room i => s.rooms[i]?.bind fun r => if r.live then some r.topic else none
  | .day w d => s.watches[w]?.bind fun w => (w.slots.get d).join

end Session

end EncedoChat.Presence
