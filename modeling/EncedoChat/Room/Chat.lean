import EncedoChat.Room.Outbox

/-!
# The content side of a room

Sessions, duplicate detection and presence of `joinChat` in `lib/room.ts`, with what it sends. Handshakes are in
another module: here a session is installed or not. What is told of presence is left out.
-/

namespace EncedoChat.Room

abbrev PeerId := String

/-- A ratchet both rooms hold after a handshake. -/
abbrev SessionId := Nat

inductive PresenceState where
  | active
  | away
  | leave
  deriving DecidableEq

/-- The `t` of an envelope, with what `dispatch` reads of it. -/
inductive Kind where
  | msg
  | reaction
  | edit
  | knock
  | file
  | typing
  | presence (state : PresenceState)
  | rtc
  | groupSkd
  | groupSkdReq
  | ack (ref : MsgId)
  /-- a type of a later version -/
  | unknown
  deriving DecidableEq

namespace Kind

/-- What the receiver acknowledges, and the sender waits for. -/
def confirmed : Kind → Bool
  | msg | edit | file => true
  | _ => false

/-- What `firstSeq` is asked about. -/
def deduped : Kind → Bool
  | msg | reaction | edit | knock | file => true
  | _ => false

/-- What `sendPlain` sends. -/
def plain : Kind → Bool
  | typing | presence _ | reaction | knock | groupSkdReq => true
  | _ => false

theorem deduped_of_confirmed {t : Kind} (h : t.confirmed = true) : t.deduped = true := by
  cases t <;> first | rfl | cases h

end Kind

/-- An envelope; `rest` is what the room hands on unread. -/
structure Envelope (β : Type) where
  t : Kind
  id : MsgId
  seq : Nat
  rest : β
  deriving DecidableEq

/-- An envelope sealed under a session. The code does not see which of the sender's rooms sealed it. -/
structure Frame (β : Type) where
  session : SessionId
  env : Envelope β
  room : Nat
  deriving DecidableEq

structure Settings where
  budget : Budget := {}
  heartbeatMs : Time := 15000
  maxQueued : Nat := 32

def PREVIOUS_GRACE_MS : Time := 60000

namespace Settings

def ttlMs (S : Settings) : Time := max (S.heartbeatMs * 6) 90000

/-- `heartbeatMs * 1.5` -/
def stillAnnouncing (S : Settings) (silence : Time) : Bool := decide (silence * 2 < S.heartbeatMs * 3)

end Settings

/-- What a turn of a room does outside its state, in order. -/
inductive Call (β : Type) where
  | onMessage (from_ : PeerId) (env : Envelope β) (outOfOrder : Bool)
  | onReaction (from_ : PeerId) (env : Envelope β)
  | onEdit (from_ : PeerId) (env : Envelope β)
  | onKnock (from_ : PeerId)
  | onFile (from_ : PeerId) (env : Envelope β)
  | onTyping (from_ : PeerId) (env : Envelope β)
  | onSignal (from_ : PeerId) (env : Envelope β)
  | onGroupSkd (from_ : PeerId) (env : Envelope β)
  | onGroupSkdReq (from_ : PeerId) (env : Envelope β)
  /-- the outbox reports of its own messages -/
  | outbox (e : Effect (Envelope β))
  /-- not a call: an envelope is built -/
  | makes (env : Envelope β)
  /-- not a call: a frame opened under a PeerId -/
  | opened (from_ : PeerId) (f : Frame β)
  /-- not a call: `forgetStream` -/
  | forgot (peer : PeerId)
  deriving DecidableEq

structure Chat (β : Type) where
  self : PeerId
  out : Outbox (Envelope β)
  seq : Nat
  sessions : OrdMap PeerId SessionId
  previous : OrdMap PeerId (SessionId × Time)
  seenSeq : List (PeerId × Nat)
  topSeq : OrdMap PeerId Nat
  lastSeen : OrdMap PeerId Time
  queued : List (Envelope β)
  /-- What `emitContent` has begun to seal: session after session, each behind an await. -/
  sealing : List (Envelope β)
  /-- distributions of sender keys that a timer sends again -/
  skdRepeats : List (Envelope β)

namespace Chat

variable {β : Type}

def join (self : PeerId) : Chat β := ⟨self, .empty, 1, .empty, .empty, [], .empty, .empty, [], [], []⟩

/-! ## Sending -/

/-- `peerPresent()`, the clock and the channel, as the outbox reads them. -/
def moment (c : Chat β) (now : Time) (direct : Bool) : Moment := ⟨now, c.lastSeen.size != 0, direct⟩

def emitContent (S : Settings) (c : Chat β) (env : Envelope β) : Chat β :=
  if c.sessions.size = 0 then
    if c.queued.length < S.maxQueued then { c with queued := c.queued ++ [env] } else c
  else { c with sealing := c.sealing ++ [env] }

def flushQueued (c : Chat β) : Chat β :=
  if c.sessions.size = 0 then c else { c with queued := [], sealing := c.sealing ++ c.queued }

/-- `void emitContent(…)` where a turn of the outbox has it. -/
def performOne (S : Settings) (c : Chat β) : Effect (Envelope β) → Chat β
  | .emit env => c.emitContent S env
  | _ => c

/-- The outbox has taken a turn. -/
def perform (S : Settings) (c : Chat β) (r : Outbox (Envelope β) × List (Effect (Envelope β))) :
    Chat β × List (Call β) :=
  (r.2.foldl (performOne S) { c with out := r.1 }, r.2.map .outbox)

/-- `envMsg(seq++, …)` and its like. -/
def make (c : Chat β) (t : Kind) (rest : β) (id : MsgId) : Envelope β × Chat β :=
  (⟨t, id, c.seq, rest⟩, { c with seq := c.seq + 1 })

/-- `sendText`, `sendEdit`, `sendFile`. -/
def sendTracked (S : Settings) (c : Chat β) (t : Kind) (rest : β) (id : MsgId) (now : Time) (direct : Bool) :
    Chat β × List (Call β) :=
  let (env, c) := c.make t rest id
  let r := c.perform S (c.out.send S.budget id env (c.moment now direct))
  (r.1, .makes env :: r.2)

/-- What nothing waits for: typing, presence, reactions, knocks and requests for a sender key. -/
def sendPlain (S : Settings) (c : Chat β) (t : Kind) (rest : β) (id : MsgId) : Chat β × List (Call β) :=
  let (env, c) := c.make t rest id
  (c.emitContent S env, [.makes env])

/-- `sendGroupSkd`; `recent`: a session is younger than five seconds. -/
def sendGroupSkd (S : Settings) (c : Chat β) (rest : β) (id : MsgId) (recent : Bool) : Chat β × List (Call β) :=
  let fresh := c.sessions.size = 0 ∨ recent = true
  let (env, c) := c.make .groupSkd rest id
  let c := c.emitContent S env
  (if fresh then { c with skdRepeats := c.skdRepeats ++ [env] } else c, [.makes env])

/-- `sendSignal`, for the sessions of now only. -/
def sendSignal (c : Chat β) (rest : β) (id : MsgId) : Chat β × List (Call β) :=
  let (env, c) := c.make .rtc rest id
  (if c.sessions.size = 0 then c else { c with sealing := c.sealing ++ [env] }, [.makes env])

def resend (S : Settings) (c : Chat β) (id : MsgId) (now : Time) (direct : Bool) : Chat β × List (Call β) :=
  c.perform S (c.out.resend S.budget id (c.moment now direct))

def flushPending (S : Settings) (c : Chat β) (now : Time) (direct : Bool) : Chat β × List (Call β) :=
  c.perform S (c.out.flushPending S.budget (c.moment now direct))

def fire (S : Settings) (c : Chat β) (timer : Nat) (now : Time) (direct : Bool) : Chat β × List (Call β) :=
  c.perform S (c.out.fire S.budget timer (c.moment now direct))

def repeatSkd (S : Settings) (c : Chat β) (n : Nat) : Chat β :=
  match c.skdRepeats[n]? with
  | none => c
  | some env => c.emitContent S env

/-! ## Peers -/

def touch (c : Chat β) (peer : PeerId) (now : Time) : Chat β := { c with lastSeen := c.lastSeen.set peer now }

def forgetStream (c : Chat β) (peer : PeerId) : Chat β :=
  { c with topSeq := c.topSeq.delete peer, seenSeq := c.seenSeq.filter (fun k => k.1 ≠ peer) }

def forgetPeer (c : Chat β) (peer : PeerId) : Chat β × List (Call β) :=
  ({ c.forgetStream peer with sessions := c.sessions.delete peer, previous := c.previous.delete peer },
    [.forgot peer])

/-- A session is forgotten, and its PeerId is not present any more. -/
def retire (r : Chat β × List (Call β)) (old : PeerId) : Chat β × List (Call β) :=
  let f := r.1.forgetPeer old
  ({ f.1 with lastSeen := f.1.lastSeen.delete old }, r.2 ++ f.2)

/-- `nowMs() - (lastSeen.get(peer) ?? 0)` -/
def silence (c : Chat β) (peer : PeerId) (now : Time) : Time := now - (c.lastSeen.get peer).getD 0

def retireOtherPeers (S : Settings) (c : Chat β) (keep : PeerId) (now : Time) : Chat β × List (Call β) :=
  (c.sessions.keys.filter (fun old => old ≠ keep ∧ S.stillAnnouncing (c.silence old now) = false)).foldl retire (c, [])

/-- The new session of a peer; the one it had stays open a while for what is in flight. -/
def replaceSession (c : Chat β) (p : PeerId) (s : SessionId) (now : Time) : Chat β :=
  let c := match c.sessions.get p with
    | some old => { c with previous := c.previous.set p (old, now + PREVIOUS_GRACE_MS) }
    | none => c
  { c.forgetStream p with sessions := c.sessions.set p s }

/-- A handshake with `p` completed. -/
def install (S : Settings) (c : Chat β) (p : PeerId) (s : SessionId) (now : Time) (direct : Bool) :
    Chat β × List (Call β) :=
  let r := (c.replaceSession p s now).retireOtherPeers S p now
  let c := r.1.flushQueued
  let u := c.perform S (c.out.onSession S.budget (c.moment now direct))
  (u.1, .forgot p :: r.2 ++ u.2)

/-- One run of `sweep`, its re-keys left to the handshakes. -/
def sweep (S : Settings) (c : Chat β) (now : Time) : Chat β × List (Call β) :=
  let c := { c with
    lastSeen := c.lastSeen.filter (fun _ t => decide (now - t ≤ S.ttlMs))
    previous := c.previous.filter (fun _ p => decide (now ≤ p.2)) }
  let alive := c.sessions.keys.filter (fun p => S.stillAnnouncing (c.silence p now))
  if 1 < c.sessions.size ∧ alive ≠ [] then
    (c.sessions.keys.filter (fun p => p ∉ alive)).foldl retire (c, [])
  else (c, [])

/-! ## Receiving -/

def firstSeq (c : Chat β) (from_ : PeerId) (seq : Nat) : Bool × Chat β :=
  if (from_, seq) ∈ c.seenSeq then (false, c) else (true, { c with seenSeq := c.seenSeq ++ [(from_, seq)] })

def outOfOrder (c : Chat β) (from_ : PeerId) (seq : Nat) : Bool × Chat β :=
  match c.topSeq.get from_ with
  | none => (false, { c with topSeq := c.topSeq.set from_ seq })
  | some top => if seq > top then (false, { c with topSeq := c.topSeq.set from_ seq }) else (true, c)

/-- `confirm(env.id)`; the acknowledgement gets an id of its own. -/
def confirm (S : Settings) (c : Chat β) (ref : MsgId) (rest : β) (ackId : MsgId) : Chat β × List (Call β) :=
  c.sendPlain S (.ack ref) rest ackId

/-- The first of its sequence number is handed on. -/
def once (c : Chat β) (from_ : PeerId) (env : Envelope β) (call : Call β) : Chat β × List (Call β) :=
  let (first, c) := c.firstSeq from_ env.seq
  (c, if first then [call] else [])

/-- A message is handed on with its place among those of its sender. -/
def showMessage (c : Chat β) (from_ : PeerId) (env : Envelope β) : Chat β × List (Call β) :=
  let (first, c) := c.firstSeq from_ env.seq
  if first then
    let (late, c) := c.outOfOrder from_ env.seq
    (c, [.onMessage from_ env late])
  else (c, [])

/-- What confirming costs: the id of the acknowledgement and the rest of its envelope. -/
structure AckDraw (β : Type) where
  id : MsgId
  rest : β

def dispatch (S : Settings) (c : Chat β) (from_ : PeerId) (env : Envelope β) (draw : AckDraw β) (now : Time)
    (direct : Bool) : Chat β × List (Call β) :=
  match env.t with
  | .msg =>
    let (c, makes) := (c.touch from_ now).confirm S env.id draw.rest draw.id
    let r := c.showMessage from_ env
    (r.1, makes ++ r.2)
  | .reaction => (c.touch from_ now).once from_ env (.onReaction from_ env)
  | .edit =>
    let (c, makes) := (c.touch from_ now).confirm S env.id draw.rest draw.id
    let r := c.once from_ env (.onEdit from_ env)
    (r.1, makes ++ r.2)
  | .knock => (c.touch from_ now).once from_ env (.onKnock from_)
  | .file =>
    let (c, makes) := (c.touch from_ now).confirm S env.id draw.rest draw.id
    let r := c.once from_ env (.onFile from_ env)
    (r.1, makes ++ r.2)
  | .typing => (c.touch from_ now, [.onTyping from_ env])
  | .presence .leave => ({ c with lastSeen := c.lastSeen.delete from_ }).forgetPeer from_
  | .presence _ => (c.touch from_ now, [])
  | .rtc => (c, [.onSignal from_ env])
  | .groupSkd => (c, [.onGroupSkd from_ env])
  | .groupSkdReq => (c, [.onGroupSkdReq from_ env])
  | .ack ref =>
    let c := c.touch from_ now
    c.perform S (c.out.ack ref now)
  | .unknown => (c, [])

/-- `Session.decrypt`: a frame opens under the session that sealed it, or, used or too old, not at all. -/
def decrypt (s : SessionId) (f : Frame β) (accepts : Bool) : Option (Envelope β) :=
  if s = f.session ∧ accepts = true then some f.env else none

/-- What a frame from a PeerId opens as. A ratchet that throws drops the frame, as the network may. -/
def openSealed (c : Chat β) (f : Frame β) (from_ : PeerId) (accepts : Bool) (now : Time) : Option (Envelope β) :=
  match c.sessions.get from_ with
  | none => none
  | some s =>
    match decrypt s f accepts with
    | some env => some env
    | none =>
      match c.previous.get from_ with
      | none => none
      | some prev => if now > prev.2 then none else decrypt prev.1 f accepts

def processSealed (S : Settings) (c : Chat β) (f : Frame β) (from_ : PeerId) (accepts : Bool) (draw : AckDraw β)
    (now : Time) (direct : Bool) : Chat β × List (Call β) :=
  match c.openSealed f from_ accepts now with
  | none => (c, [])
  | some env =>
    if from_ = c.self then (c, [])
    else
      let r := c.dispatch S from_ env draw now direct
      (r.1, .opened from_ f :: r.2)

end Chat

end EncedoChat.Room
