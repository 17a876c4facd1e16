import EncedoChat.SelfSession.Announce

/-!
# The watch of one's own topic

`lib/selfsession.ts`: one watch for each active day, its settling period and its step-down, and the rotation that
starts and stops the watches. Every await is a step of its own. Log lines are left out, and the timers fire when they
like.
-/

namespace EncedoChat.SelfSession

open Presence (Time Date activeDatesForOffset)

variable {M : Mac} {τ : Type} [DecidableEq τ]

/-- What a window does outside. -/
inductive Out (M : Mac) (τ : Type) where
  | subscribe (topic : τ)
  | unsubscribe (topic : τ)
  | publish (topic : τ) (frm : String) (data : Json)
  | takenOver (byPeer : String)

/-- What stands down in the end: the farewell is under way, or out. -/
inductive Leaving where
  | building
  | publishing

/-- `watchSelfSession` -/
structure Watch (M : Mac) (τ : Type) where
  topic : τ
  macKey : M.Key
  preexisting : List String
  seenNonces : NonceCache
  done : Bool
  settled : Bool
  stepping : Bool
  /-- the settle timer is set -/
  settling : Bool
  /-- `stop` has not run: the listener, the subscription and the heartbeat stand -/
  running : Bool
  /-- the announces that `announce` is building -/
  announcing : Nat
  /-- what the handler's calls of `verifyAnnounce` come to -/
  verifying : List (Except String (String × String))
  /-- the peer that `stepDown` was called for, while it waits -/
  leaving : Option (String × Leaving)

namespace Watch

/-- The call of `watchSelfSession`, the first announce being built. -/
def start (topic : τ) (macKey : M.Key) : Watch M τ where
  topic := topic
  macKey := macKey
  preexisting := []
  seenNonces := .empty
  done := false
  settled := false
  stepping := false
  settling := true
  running := true
  announcing := 1
  verifying := []
  leaving := none

def stop (v : Watch M τ) : Watch M τ := { v with settling := false, running := false }

def stepDown (v : Watch M τ) (byPeer : String) : Watch M τ :=
  if v.done ∨ v.stepping then v else { v with stepping := true, leaving := some (byPeer, .building) }

/-- The handler, up to its call of `verifyAnnounce`. -/
def onMessage (self : String) (v : Watch M τ) (topic : τ) (frm : String) (data : Option Json) (now : Time) :
    Watch M τ :=
  if v.running = false ∨ v.done ∨ topic ≠ v.topic ∨ frm = self then v
  else { v with verifying := v.verifying ++ [verifyAnnounce M data v.macKey now] }

/-- The handler, from there on. -/
def onVerified (self : String) (v : Watch M τ) (res : Except String (String × String)) (now : Time) : Watch M τ :=
  match res with
  | .error _ => v
  | .ok (peer, nonce) =>
    if peer = self ∨ v.seenNonces.has nonce then v
    else
      let v := { v with seenNonces := NonceCache.add v.seenNonces nonce now }
      if v.settled then v.stepDown peer
      else { v with preexisting := if peer ∈ v.preexisting then v.preexisting else v.preexisting ++ [peer] }

/-- `[...preexisting].sort().pop()` -/
def last : List String → Option String
  | [] => none
  | p :: ps => some (ps.foldl (fun m q => if m < q then q else m) p)

/-- The settle timer fires. -/
def settle (v : Watch M τ) : Watch M τ :=
  let v := { v with settling := false, settled := true }
  match last v.preexisting with
  | none => v
  | some peer => v.stepDown peer

end Watch

/-- The day `sync` is waiting for, and those it has not come to. -/
structure Sync where
  dates : List Date
  next : Date
  rest : List Date

/-- `watchSelfSessionRotating`; a watch is an object, which lives on while something of it is under way. -/
structure Window (M : Mac) (τ : Type) where
  watches : OrdMap Date Nat
  objs : OrdMap Nat (Watch M τ)
  fresh : Nat
  taken : Bool
  stopped : Bool
  syncing : Option Sync

inductive Event (τ : Type) where
  /-- `sync` is called, at the start or by the tick -/
  | sync (now : Time)
  /-- `deriveForDate` settles -/
  | derived (ok : Bool)
  /-- the transport hands over a frame -/
  | message (topic : τ) (frm : String) (data : Option Json) (now : Time)
  /-- a call of `verifyAnnounce` of a watch settles -/
  | verified (i n : Nat) (now : Time)
  | settle (i : Nat)
  | heartbeat (i : Nat)
  /-- an announce is built, and published -/
  | announced (i : Nat) (nonce : String) (ts : Time)
  /-- the farewell is built, and published -/
  | farewell (i : Nat) (nonce : String) (ts : Time)
  /-- the publishing of the farewell settles, or anything before it throws -/
  | left (i : Nat)
  /-- `stop` is called -/
  | stop

namespace Window

/-- What the caller gives, the same in every window of the identity but for its own PeerId. -/
structure Config (M : Mac) (τ : Type) where
  deriveForDate : Date → τ × M.Key
  offsetMs : Int
  overlapMs : Int

variable (C : Config M τ) (self : String)

def start : Window M τ := ⟨.empty, .empty, 0, false, false, none⟩

def put (w : Window M τ) (i : Nat) (v : Watch M τ) : Window M τ := { w with objs := w.objs.set i v }

/-- `w.stop()` on one of the watches. -/
def stopWatch (w : Window M τ) (i : Nat) : Window M τ × List (Out M τ) :=
  match w.objs.get i with
  | none => (w, [])
  | some v => (w.put i v.stop, [.unsubscribe v.topic])

def stopWatches (w : Window M τ) : List Nat → Window M τ × List (Out M τ)
  | [] => (w, [])
  | i :: is => ((w.stopWatch i).1.stopWatches is).map id ((w.stopWatch i).2 ++ ·)

def stopAll (w : Window M τ) : Window M τ × List (Out M τ) :=
  let r := w.stopWatches (w.watches.entries.map Prod.snd)
  ({ r.1 with watches := .empty }, r.2)

def onTaken (w : Window M τ) (byPeer : String) : Window M τ × List (Out M τ) :=
  if w.taken ∨ w.stopped then (w, [])
  else
    let r := { w with taken := true }.stopAll
    (r.1, r.2 ++ [.takenOver byPeer])

/-- The watches of days that are over. -/
def expired (w : Window M τ) (dates : List Date) : List (Date × Nat) := w.watches.entries.filter fun e => e.1 ∉ dates

/-- The last loop of `sync`. -/
def rotateOff (w : Window M τ) (dates : List Date) : Window M τ × List (Out M τ) :=
  let r := w.stopWatches ((w.expired dates).map Prod.snd)
  ({ r.1 with watches := w.watches.filter fun d _ => d ∈ dates, syncing := none }, r.2)

/-- The first loop of `sync`, up to the next day that has no watch. -/
def proceed (w : Window M τ) (dates : List Date) : List Date → Window M τ × List (Out M τ)
  | [] => w.rotateOff dates
  | d :: rest => if w.watches.has d then w.proceed dates rest else ({ w with syncing := some ⟨dates, d, rest⟩ }, [])

/-- The watch of a day is started. -/
def startWatch (w : Window M τ) (d : Date) : Window M τ × List (Out M τ) :=
  let v : Watch M τ := .start (C.deriveForDate d).1 (C.deriveForDate d).2
  ({ w with watches := w.watches.set d w.fresh, objs := w.objs.set w.fresh v, fresh := w.fresh + 1 },
    [.subscribe v.topic])

def sync (w : Window M τ) (now : Time) : Window M τ × List (Out M τ) :=
  if w.stopped ∨ w.taken ∨ w.syncing.isSome then (w, [])
  else
    let dates := activeDatesForOffset now C.offsetMs C.overlapMs
    w.proceed dates dates

def derived (w : Window M τ) (ok : Bool) : Window M τ × List (Out M τ) :=
  match w.syncing with
  | none => (w, [])
  | some s =>
    if ok = false ∨ w.stopped ∨ w.taken ∨ w.watches.has s.next then ({ w with syncing := none }, [])
    else
      let r := w.startWatch C s.next
      (r.1.proceed s.dates s.rest).map id (r.2 ++ ·)

/-- A change of one watch, which does nothing outside. -/
def change (w : Window M τ) (i : Nat) (f : Watch M τ → Watch M τ) : Window M τ × List (Out M τ) :=
  match w.objs.get i with
  | none => (w, [])
  | some v => (w.put i (f v), [])

def message (w : Window M τ) (topic : τ) (frm : String) (data : Option Json) (now : Time) :
    Window M τ × List (Out M τ) :=
  ({ w with objs := w.objs.map fun _ v => v.onMessage self topic frm data now }, [])

def verified (w : Window M τ) (i n : Nat) (now : Time) : Window M τ × List (Out M τ) :=
  w.change i fun v =>
    match v.verifying[n]? with
    | none => v
    | some res => { v with verifying := v.verifying.eraseIdx n }.onVerified self res now

def settle (w : Window M τ) (i : Nat) : Window M τ × List (Out M τ) :=
  w.change i fun v => if v.settling then v.settle else v

/-- `announce`, up to its await. -/
def heartbeat (w : Window M τ) (i : Nat) : Window M τ × List (Out M τ) :=
  w.change i fun v => if v.running ∧ v.done = false then { v with announcing := v.announcing + 1 } else v

def announced (w : Window M τ) (i : Nat) (nonce : String) (ts : Time) : Window M τ × List (Out M τ) :=
  match w.objs.get i with
  | none => (w, [])
  | some v =>
    if v.announcing = 0 then (w, [])
    else
      (w.put i { v with announcing := v.announcing - 1 },
        [.publish v.topic self (buildAnnounce M self v.macKey nonce ts)])

def farewell (w : Window M τ) (i : Nat) (nonce : String) (ts : Time) : Window M τ × List (Out M τ) :=
  match w.objs.get i with
  | none => (w, [])
  | some v =>
    match v.leaving with
    | some (byPeer, .building) =>
      (w.put i { v with leaving := some (byPeer, .publishing) },
        [.publish v.topic self (buildAnnounce M self v.macKey nonce ts)])
    | _ => (w, [])

def left (w : Window M τ) (i : Nat) : Window M τ × List (Out M τ) :=
  match w.objs.get i with
  | none => (w, [])
  | some v =>
    match v.leaving with
    | none => (w, [])
    | some (byPeer, _) =>
      ((w.put i { v with done := true, leaving := none }.stop).onTaken byPeer).map id (.unsubscribe v.topic :: ·)

def stop (w : Window M τ) : Window M τ × List (Out M τ) := { w with stopped := true }.stopAll

def step (w : Window M τ) : Event τ → Window M τ × List (Out M τ)
  | .sync now => w.sync C now
  | .derived ok => w.derived C ok
  | .message topic frm data now => w.message self topic frm data now
  | .verified i n now => w.verified self i n now
  | .settle i => w.settle i
  | .heartbeat i => w.heartbeat i
  | .announced i nonce ts => w.announced self i nonce ts
  | .farewell i nonce ts => w.farewell self i nonce ts
  | .left i => w.left i
  | .stop => w.stop

end Window

end EncedoChat.SelfSession
