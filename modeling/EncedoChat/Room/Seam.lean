import EncedoChat.Handshake.Establish
import EncedoChat.Room.Chat

/-!
# The handshakes of a room

The attempts of `joinChat` in `lib/room.ts`: who is handshaken with, and which of the handshakes installs its session.
Whatever runs between two awaits is one step. What only the user interface is told is left out, and what a session does
with content.
-/

namespace EncedoChat.Room

open EncedoChat.Handshake (Suite StartOpts Fresh Engine Feed Refusal HandshakeError Role T_MSG1 T_MSG2 T_MSG3)

/-- `encedo-eh2-initiator-tag-v1` -/
def INITIATOR_TAG_LABEL : Bytes :=
  [101, 110, 99, 101, 100, 111, 45, 101, 104, 50, 45, 105, 110, 105, 116, 105, 97, 116, 111, 114, 45, 116, 97, 103, 45,
    118, 49]
/-- its first; what the second adds is random -/
def RETRY_SOON_MS : Time := 200
def CALM_AFTER : Nat := 16
def CALM_MS : Time := 3000
def GIVE_ROOM_AFTER : Nat := 24
def GIVE_ROOM_MS : Time := 10000
def NOT_OURS_MS : Time := 5 * 60000

variable {C : Suite}

def initiatorTagKey (C : Suite) (announceKey : Bytes) : Bytes := C.hmac announceKey INITIATOR_TAG_LABEL

/-- `/initiator tag/` finds something in the message. -/
def namesTag : HandshakeError → Bool
  | .secondWindow | .notTheContact | .tagKey => true
  | _ => false

def isHandshakeFrame (frame : Bytes) : Bool :=
  decide (2 < frame.length) &&
    (frame.head? == some T_MSG1 || frame.head? == some T_MSG2 || frame.head? == some T_MSG3)

/-! ## Attempts -/

/-- How far an attempt has come: `h` is null until `startHandshake` returns. -/
inductive Stage (C : Suite) where
  /-- `startHandshake` is awaited by `beginHandshake`, for `peer`; `frame` is the one that the attempt is to be fed. -/
  | starting (peer : PeerId) (tagKey : Bytes) (frame : Option Bytes)
  | ready (h : Engine C)
  /-- It has no handshake, and will have none. -/
  | nothing

structure Attempt (C : Suite) where
  stage : Stage C
  role : Role
  startedAt : Time
  msg1 : Option Bytes
  peer : PeerId
  rekey : Bool
  cancelled : Bool
  reply : Option Bytes
  /-- Whether the reaction to its promise has run. -/
  told : Bool

def Attempt.h (a : Attempt C) : Option (Engine C) :=
  match a.stage with
  | .ready e => some e
  | _ => none

/-- A call of `onHandshakeFrame` that goes on, for the attempt it has taken. -/
inductive Task (C : Suite) where
  /-- `beginHandshake` has returned. -/
  | begun (i : Nat) (from_ : PeerId) (frame : Bytes)
  | feeding (i : Nat) (from_ : PeerId) (f : Feed C)
  | fed (i : Nat) (from_ : PeerId) (out : Except Refusal (Option Bytes))

structure Install (C : Suite) where
  attempt : Nat
  session : Handshake.Session C

/-- The attempts that a room ever made, and what decides which of them count. -/
structure Attempts (C : Suite) where
  ik : C.Priv
  peerIkPub : Bytes
  macKey : Bytes
  /-- An attempt is known by its place. -/
  made : List (Attempt C)
  handshakes : OrdMap PeerId Nat
  tasks : List (Option (Task C))
  /-- newest first -/
  installs : List (Install C)

namespace Attempts

def update (t : Attempts C) (i : Nat) (f : Attempt C → Attempt C) : Attempts C := { t with made := t.made.modify i f }

def push (t : Attempts C) (task : Task C) : Attempts C := { t with tasks := t.tasks ++ [some task] }

/-- Whether the attempt is the one that its peer's handshake is. -/
def holds (t : Attempts C) (i : Nat) (peer : PeerId) : Bool := t.handshakes.get peer == some i

/-- `clearAttempt`, but for the timers. -/
def clear (t : Attempts C) (peer : PeerId) : Attempts C :=
  { (t.handshakes.get peer).elim t fun i => t.update i fun a => { a with cancelled := true } with
    handshakes := t.handshakes.delete peer }

/-- A new attempt, for a peer that has none. -/
def begin_ (t : Attempts C) (peer : PeerId) (role : Role) (msg1 : Option Bytes) (rekey : Bool) (now : Time) :
    Attempts C :=
  let stage := .starting peer (initiatorTagKey C t.macKey) msg1
  { t with
    made := t.made ++ [⟨stage, role, now, msg1, peer, rekey, false, none, false⟩]
    handshakes := t.handshakes.set peer t.made.length }

/-- An attempt is keyed by another peer. -/
def move (t : Attempts C) (i : Nat) (old from_ : PeerId) : Attempts C :=
  { t.update i fun a => { a with peer := from_ } with handshakes := (t.handshakes.delete old).set from_ i }

def setStage (t : Attempts C) (i : Nat) (s : Stage C) : Attempts C := t.update i fun a => { a with stage := s }

/-- An engine has taken a step for a frame of a peer. -/
def stepped (t : Attempts C) (i : Nat) (from_ : PeerId) (r : Engine C × (Feed C ⊕ Except Refusal (Option Bytes))) :
    Attempts C :=
  (t.setStage i (.ready r.1)).push (r.2.elim (.feeding i from_) (.fed i from_))

/-- `attempt.h.feed(data)`, if there is `attempt.h`. -/
def feed (t : Attempts C) (i : Nat) (data : Bytes) (from_ : PeerId) (now : Time) : Attempts C :=
  match (t.made[i]?).bind Attempt.h with
  | none => t
  | some e => t.stepped i from_ (e.feed data now)

def install (t : Attempts C) (i : Nat) (peer : PeerId) (s : Handshake.Session C) : Attempts C :=
  { t.clear peer with installs := ⟨i, s⟩ :: t.installs }

end Attempts

/-! ## The room -/

structure Seam (C : Suite) extends Attempts C where
  self : PeerId
  lifetimeMs : Time
  topic : String
  stopped : Bool
  sessions : OrdMap PeerId (Handshake.Session C)
  establishedAt : OrdMap PeerId Time
  rekeying : List PeerId
  lastSeen : OrdMap PeerId Time
  failedAttempts : OrdMap PeerId Nat
  backoffUntil : OrdMap PeerId Time
  everEstablished : List PeerId
  declaredForeign : OrdMap PeerId Time
  /-- A timer is known by the attempt it was set for: those of each peer, and those that were not cleared. -/
  attemptTimers : OrdMap PeerId Nat
  resendTimers : OrdMap PeerId Nat
  timeouts : List Nat
  /-- with the times the frame was sent again -/
  resends : OrdMap Nat Nat
  /-- the timers of `giveUp`, those of a re-key marked -/
  retries : List (Option (PeerId × Bool))
  /-- what went to the topic -/
  sent : List Bytes

namespace Seam

def join (ik : C.Priv) (peerIkPub macKey : Bytes) (self : PeerId) (lifetimeMs : Time) (topic : String) : Seam C where
  ik := ik
  peerIkPub := peerIkPub
  macKey := macKey
  made := []
  handshakes := .empty
  tasks := []
  installs := []
  self := self
  lifetimeMs := lifetimeMs
  topic := topic
  stopped := false
  sessions := .empty
  establishedAt := .empty
  rekeying := []
  lastSeen := .empty
  failedAttempts := .empty
  backoffUntil := .empty
  everEstablished := []
  declaredForeign := .empty
  attemptTimers := .empty
  resendTimers := .empty
  timeouts := []
  resends := .empty
  retries := []
  sent := []

def gossip (r : Seam C) (frames : List Bytes) : Seam C := { r with sent := r.sent ++ frames }

def clearAttempt (r : Seam C) (peer : PeerId) : Seam C :=
  { r with
    toAttempts := r.clear peer
    timeouts := r.timeouts.filter fun i => r.attemptTimers.get peer ≠ some i
    resends := r.resends.filter fun i _ => r.resendTimers.get peer ≠ some i
    attemptTimers := r.attemptTimers.delete peer
    resendTimers := r.resendTimers.delete peer }

def forgetPeer (r : Seam C) (peer : PeerId) : Seam C :=
  let r := r.clearAttempt peer
  { r with
    sessions := r.sessions.delete peer
    establishedAt := r.establishedAt.delete peer
    rekeying := r.rekeying.filter (· ≠ peer) }

/-- `nowMs() - (lastSeen.get(peer) ?? 0)` -/
def silence (r : Seam C) (peer : PeerId) (now : Time) : Time := now - (r.lastSeen.get peer).getD 0

/-- A session is retired: its peer came back under another id. -/
def retire (r : Seam C) (old : PeerId) : Seam C :=
  let r := r.forgetPeer old
  { r with lastSeen := r.lastSeen.delete old }

def retireOtherPeers (S : Settings) (r : Seam C) (keep : PeerId) (now : Time) : Seam C :=
  (r.sessions.keys.filter fun old => old ≠ keep ∧ S.stillAnnouncing (r.silence old now) = false).foldl retire r

/-- Up to its first await. -/
def beginHandshake (r : Seam C) (peer : PeerId) (role : Role) (msg1 : Option Bytes) (now : Time) : Seam C :=
  let r := r.clearAttempt peer
  { r with toAttempts := r.begin_ peer role msg1 (r.sessions.has peer) now }

def inBackoff (r : Seam C) (peer : PeerId) (now : Time) : Bool := decide (now < (r.backoffUntil.get peer).getD 0)

def maybeHandshake (r : Seam C) (peer : PeerId) (now : Time) : Seam C :=
  if peer = r.self then r
  else if r.inBackoff peer now || r.sessions.has peer || r.handshakes.has peer || !r.lastSeen.has peer then r
  else r.beginHandshake peer .initiator none now

def touch (r : Seam C) (peer : PeerId) (now : Time) : Seam C :=
  { r with lastSeen := r.lastSeen.set peer now }.maybeHandshake peer now

/-- `jitter` is what the random part of the wait comes to. -/
def giveUp (r : Seam C) (peer : PeerId) (failed : Attempt C) (now jitter : Time) : Seam C :=
  if r.sessions.has peer then
    if failed.rekey = false then r
    else
      let r := { r with rekeying := r.rekeying.filter (· ≠ peer) }
      if r.lastSeen.has peer then
        { r with rekeying := r.rekeying ++ [peer], retries := r.retries ++ [some (peer, true)] }
      else r
  else
    let n := (r.failedAttempts.get peer).getD 0 + 1
    let r := { r with failedAttempts := r.failedAttempts.set peer n }
    if r.lastSeen.has peer then
      let wait :=
        if r.everEstablished.contains peer || decide (n < CALM_AFTER) then RETRY_SOON_MS + jitter
        else if n < GIVE_ROOM_AFTER then CALM_MS
        else GIVE_ROOM_MS
      { r with
        backoffUntil := r.backoffUntil.set peer (now + wait)
        retries := r.retries ++ [some (peer, false)] }
    else r

def notOurContact (r : Seam C) (peer : PeerId) (now : Time) : Seam C :=
  if (r.declaredForeign.get peer).any fun t => decide (now - t < NOT_OURS_MS) then r
  else
    let r := { r with
      declaredForeign := r.declaredForeign.set peer now
      backoffUntil := r.backoffUntil.set peer (now + NOT_OURS_MS) }.clearAttempt peer
    { r with lastSeen := r.lastSeen.delete peer }

/-! ## The rest of `beginHandshake` -/

/-- The attempt has its handshake: its timers are set, and its opening frame goes out. -/
def opened (r : Seam C) (i : Nat) (peer : PeerId) (h : Engine C) : Seam C :=
  let r := { r with
    toAttempts := r.setStage i (.ready h)
    attemptTimers := r.attemptTimers.set peer i
    timeouts := r.timeouts ++ [i] }.gossip h.initial
  if h.initial = [] then r
  else { r with resendTimers := r.resendTimers.set peer i, resends := r.resends.set i 0 }

/-- `startHandshake` has returned. -/
def started (r : Seam C) (i : Nat) (d : Fresh C) (now : Time) : Seam C :=
  match r.made[i]? with
  | none => r
  | some a =>
    match a.stage with
    | .starting peer tagKey frame =>
      match Engine.start a.role ⟨r.ik, r.peerIkPub, tagKey⟩ d now with
      | .error _ =>
        let r := { r with toAttempts := r.setStage i .nothing }
        if r.holds i peer then r.clearAttempt peer else r
      | .ok h =>
        if r.holds i peer = false then { r with toAttempts := r.setStage i .nothing }
        else
          let r := r.opened i peer h
          match frame with
          | none => r
          | some data => { r with toAttempts := r.push (.begun i peer data) }
    | _ => r

/-- `h.session.then(..)` -/
def settled (S : Settings) (r : Seam C) (i : Nat) (now jitter : Time) : Seam C :=
  match r.made[i]? with
  | none => r
  | some a =>
    match a.h.bind (·.session) with
    | none => r
    | some out =>
      if a.told then r
      else
        let r := { r with toAttempts := r.update i fun a => { a with told := true } }
        let p := a.peer
        if a.cancelled || !r.holds i p then r
        else
          match out with
          | .ok s =>
            let c := r.clearAttempt p
            { c with
              toAttempts := r.install i p s
              failedAttempts := c.failedAttempts.delete p
              backoffUntil := c.backoffUntil.delete p
              everEstablished := c.everEstablished ++ [p]
              sessions := c.sessions.set p s
              establishedAt := c.establishedAt.set p now
              rekeying := c.rekeying.filter (· ≠ p) }.retireOtherPeers S p now
          | .error _ => (r.clearAttempt p).giveUp p a now jitter

def timeout (r : Seam C) (i : Nat) (now jitter : Time) : Seam C :=
  match r.made[i]? with
  | none => r
  | some a =>
    if r.timeouts.contains i then
      let r := { r with timeouts := r.timeouts.filter (· ≠ i) }
      if r.holds i a.peer then (r.clearAttempt a.peer).giveUp a.peer a now jitter else r
    else r

/-- The interval that sends the opening frame again. -/
def resend (r : Seam C) (i : Nat) : Seam C :=
  match r.resends.get i, r.made[i]? with
  | some n, some a =>
    if !r.holds i a.peer || decide (3 < n + 1) then { r with resends := r.resends.delete i }
    else { r with resends := r.resends.set i (n + 1) }.gossip ((a.h.map Engine.initial).getD [])
  | _, _ => r

def retry (r : Seam C) (k : Nat) (now : Time) : Seam C :=
  match r.retries[k]? with
  | some (some (peer, rekey)) =>
    let r := { r with retries := r.retries.set k none }
    if rekey then
      let r := { r with rekeying := r.rekeying.filter (· ≠ peer) }
      if r.sessions.has peer && !r.handshakes.has peer && r.lastSeen.has peer then
        { r with rekeying := r.rekeying ++ [peer] }.beginHandshake peer .initiator none now
      else r
    else r.maybeHandshake peer now
  | _ => r

/-! ## Frames -/

/-- The attempts that an answer may be for, with their peers. -/
def liveInitiators (r : Seam C) : List (PeerId × Nat) :=
  r.handshakes.entries.filter fun e =>
    (r.made[e.2]?).any fun a => decide (a.role = .initiator) && a.h.isSome && !a.cancelled

def moveTimer (m : OrdMap PeerId Nat) (old from_ : PeerId) : OrdMap PeerId Nat :=
  (m.get old).elim m fun t => (m.delete old).set from_ t

def followMovedPeer (S : Settings) (r : Seam C) (from_ : PeerId) (now : Time) : Seam C × Option Nat :=
  match r.liveInitiators with
  | [(old, i)] =>
    if old = from_ then (r, some i)
    else
      let r := { r with
        toAttempts := r.move i old from_
        attemptTimers := moveTimer r.attemptTimers old from_
        resendTimers := moveTimer r.resendTimers old from_ }
      if S.stillAnnouncing (r.silence old now) then (r, some i)
      else
        ({ r with
          lastSeen := r.lastSeen.delete old
          backoffUntil := r.backoffUntil.delete old
          failedAttempts := r.failedAttempts.delete old }, some i)
  | _ => (r, none)

/-- `onHandshakeFrame` up to its first await. -/
def onHandshakeFrame (S : Settings) (r : Seam C) (data : Bytes) (from_ : PeerId) (now : Time) : Seam C :=
  if from_ = r.self then r
  else if r.inBackoff from_ now then r
  else if data.head? = some T_MSG1 then
    match (r.handshakes.get from_).bind fun i => r.made[i]? with
    | none => r.beginHandshake from_ .responder (some data) now
    | some a =>
      if a.role = .responder ∧ a.msg1 = some data then r.gossip a.reply.toList
      -- Their msg1 crossed a fresh one of ours: the lower id holds its ground.
      else if a.role = .initiator ∧ r.self < from_ ∧ now - a.startedAt < 2000 then r
      else r.beginHandshake from_ .responder (some data) now
  else
    match r.handshakes.get from_ with
    | some i => { r with toAttempts := r.feed i data from_ now }
    | none =>
      match r.followMovedPeer S from_ now with
      | (r, none) => r
      | (r, some i) => { r with toAttempts := r.feed i data from_ now }

/-- A call of `onHandshakeFrame` goes on. -/
def resume (r : Seam C) (k : Nat) (d : Fresh C) (now : Time) : Seam C :=
  match r.tasks[k]? with
  | some (some t) =>
    let r := { r with tasks := r.tasks.set k none }
    match t with
    | .begun i from_ data => { r with toAttempts := r.feed i data from_ now }
    | .feeding i from_ f =>
      match (r.made[i]?).bind Attempt.h with
      | none => r
      | some e => { r with toAttempts := r.stepped i from_ (e.resume d f) }
    | .fed i _ (.ok (some reply)) =>
      { r with toAttempts := r.update i fun a => { a with reply := some reply } }.gossip [reply]
    | .fed _ _ (.ok none) => r
    | .fed _ from_ (.error (.handshake e)) => if namesTag e then r.notOurContact from_ now else r
    | .fed _ _ (.error .completed) => r
  | _ => r

/-! ## The others -/

def left (r : Seam C) (peer : PeerId) : Seam C := { r with lastSeen := r.lastSeen.delete peer }.forgetPeer peer

/-- `7.3`: a session is too old. -/
def rekeyOld (now : Time) (r : Seam C) (e : PeerId × Time) : Seam C :=
  if now - e.2 < r.lifetimeMs || !r.sessions.has e.1 then r
  else if r.handshakes.has e.1 || r.rekeying.contains e.1 || !r.lastSeen.has e.1 then r
  else if r.self < e.1 then
    { r with rekeying := r.rekeying ++ [e.1] }.beginHandshake e.1 .initiator none now
  else r

def sweep (S : Settings) (r : Seam C) (now : Time) : Seam C :=
  let r := { r with lastSeen := r.lastSeen.filter fun _ t => decide (now - t ≤ S.ttlMs) }
  let alive := r.sessions.keys.filter fun p => S.stillAnnouncing (r.silence p now)
  let r :=
    if 1 < r.sessions.size ∧ alive ≠ [] then (r.sessions.keys.filter fun p => p ∉ alive).foldl retire r else r
  r.establishedAt.entries.foldl (rekeyOld now) r

def retarget (r : Seam C) (newTopic : String) (macKey : Bytes) (now : Time) : Seam C :=
  if newTopic = "" ∨ newTopic = r.topic then r
  else
    let r := { r with topic := newTopic, macKey := macKey }
    let r := r.handshakes.keys.foldl clearAttempt r
    r.lastSeen.keys.foldl (fun r p => r.maybeHandshake p now) r

def stop (r : Seam C) : Seam C :=
  let r := (r.handshakes.keys ++ r.attemptTimers.keys ++ r.resendTimers.keys).foldl clearAttempt r
  { r with sessions := .empty, establishedAt := .empty, stopped := true }

end Seam

/-- What a room does in one turn. -/
inductive SeamAct (C : Suite) where
  /-- A peer is heard: by an Announce, by what it sends, or by a watch that the room is seeded from. -/
  | touch (peer : PeerId) (now : Time)
  | left (peer : PeerId)
  /-- Any bytes, under any sender. -/
  | frame (data : Bytes) (from_ : PeerId) (now : Time)
  | resume (k : Nat) (d : Fresh C) (now : Time)
  | started (i : Nat) (d : Fresh C) (now : Time)
  | settled (i : Nat) (now jitter : Time)
  | timeout (i : Nat) (now jitter : Time)
  | resend (i : Nat)
  | retry (k : Nat) (now : Time)
  | sweep (now : Time)
  | retarget (newTopic : String) (macKey : Bytes) (now : Time)
  | stop

def Seam.act (S : Settings) (r : Seam C) : SeamAct C → Seam C
  | .touch peer now => r.touch peer now
  | .left peer => r.left peer
  | .frame data from_ now => if r.stopped || !isHandshakeFrame data then r else r.onHandshakeFrame S data from_ now
  | .resume k d now => r.resume k d now
  | .started i d now => r.started i d now
  | .settled i now jitter => r.settled S i now jitter
  | .timeout i now jitter => r.timeout i now jitter
  | .resend i => r.resend i
  | .retry k now => r.retry k now
  | .sweep now => if r.stopped then r else r.sweep S now
  | .retarget newTopic macKey now => r.retarget newTopic macKey now
  | .stop => r.stop

end EncedoChat.Room
