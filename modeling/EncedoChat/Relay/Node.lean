import EncedoChat.Lib.Bytes
import EncedoChat.Lib.Json
import EncedoChat.Relay.Tables

/-!
# One relay

The handlers of `relay.mjs` over its topics, with the validators of `limits.mjs`, the sweep of `topics.mjs` and the
cache of `load.mjs`. GossipSub hands on and announces a frame of a topic it is subscribed to, if the topic's validator
accepts it. What a listener does with a list of subscriptions it does one subscription after another.
-/

namespace EncedoChat.Relay

abbrev Time := Int

def MAX_FRAME_BYTES : Nat := 65536

def ANNOUNCE_MS : Time := 30000

def STALE_MS : Time := 3 * ANNOUNCE_MS

structure Config (π τ : Type) where
  maxTopics : Nat
  perPeer : Nat
  idleTtl : Time
  /-- `--local-topics-only` -/
  localOnly : Bool
  siblings : List π
  self : π
  loadTopic : τ
  /-- the JSON of a reading -/
  parse : Bytes → Option Json

variable {π τ : Type} [DecidableEq π] [DecidableEq τ]

/-- Do we join the topic this peer just announced? -/
def shouldJoin (C : Config π τ) (peer : π) : Bool := !C.localOnly || !decide (peer ∈ C.siblings)

/-! ## Validators -/

def oversize (data : Bytes) : Bool := MAX_FRAME_BYTES < data.length

inductive Validator where
  | frame
  | load
  deriving DecidableEq

/-- Accept, or else ignore. -/
def Validator.accepts (C : Config π τ) (v : Validator) (author : π) (data : Bytes) : Bool :=
  match v with
  | frame => !oversize data
  | load => !oversize data && (author ∈ C.siblings || author = C.self)

/-! ## The load cache -/

structure Reading where
  node : String
  pct : Nat
  stamp : Rat

def decodeLoad (parse : Bytes → Option Json) (data : Bytes) : Option Reading := do
  let d ← parse data
  if Json.isNum (d.field "v") 1 then
    match d.field "n", d.field "pct", d.field "at" with
    | some (.str n), some (.num pct), some (.num stamp) =>
      if n = "" ∨ 40 < Text.length n ∨ pct.den ≠ 1 ∨ pct < 0 ∨ 100 < pct then none
      else some ⟨n, pct.num.toNat, stamp⟩
    | _, _, _ => none
  else none

structure Cached (π : Type) where
  author : π
  data : Bytes
  stamp : Rat

/-- `loadCache.put`: whether it is kept, and the cache. -/
def putLoad (C : Config π τ) (cache : OrdMap String (Cached π)) (author : π) (data : Bytes) (now : Time) :
    Bool × OrdMap String (Cached π) :=
  match decodeLoad C.parse data with
  | none => (false, cache)
  | some r =>
    if r.stamp > now + ANNOUNCE_MS then (false, cache)
    else if (cache.get r.node).elim true (fun prev => decide (prev.stamp ≤ r.stamp)) then
      (true, cache.set r.node ⟨author, data, r.stamp⟩)
    else (false, cache)

def snapshot (cache : OrdMap String (Cached π)) (now : Time) : List (Cached π) :=
  (cache.entries.map Prod.snd).filter (fun e => decide (now - e.stamp ≤ STALE_MS) && decide (e.stamp ≤ now + ANNOUNCE_MS))

/-! ## The node -/

/-- A PUSH whose publish is under way. -/
structure Push (π τ : Type) where
  peer : π
  sink : Sink
  topic : τ
  data : Bytes

structure Node (π τ : Type) where
  /-- `pubsub.getTopics()` -/
  topics : List τ
  validators : OrdMap τ Validator
  lastSeen : OrdMap τ Time
  quota : Quota π τ
  picks : Picks π τ
  loadCache : OrdMap String (Cached π)
  pushing : List (Push π τ)
  /-- the load topic has been set up -/
  loadReady : Bool

inductive Out (π τ : Type) where
  | deliver (sink : Sink) (author : π) (topic : τ) (data : Bytes)
  | refused (sink : Sink) (topic : τ)
  | picked (sink : Sink) (topic : τ)
  | ack (sink : Sink) (topic : τ) (reach : Nat)
  /-- published by this node -/
  | publish (topic : τ) (data : Bytes)
  | forward (author : π) (topic : τ) (data : Bytes)
  | cached (author : π) (data : Bytes)
  deriving DecidableEq

inductive Event (π τ : Type) where
  | pick (peer : π) (sink : Sink) (topic : τ) (now : Time)
  | drop (peer : π) (sink : Sink) (topic : τ)
  | push (peer : π) (sink : Sink) (topic : τ) (data : Bytes)
  /-- the publish of the `k`-th push is through -/
  | pushed (k recipients : Nat) (now : Time)
  /-- a pick stream closes -/
  | bye (peer : π) (sink : Sink)
  | subscription (peer : π) (topic : τ) (subscribe : Bool) (now : Time)
  | message (author : π) (topic : τ) (data : Bytes) (now : Time)
  | sweep (now : Time)
  | disconnect (peer : π)
  /-- the set-up of the load topic -/
  | setUpLoad
  | announce (mine : Bytes) (now : Time)

namespace Node

def start : Node π τ := ⟨[], .empty, .empty, .empty, .empty, .empty, [], false⟩

def join (w : Node π τ) (topic : τ) : Node π τ :=
  { w with topics := w.topics ++ [topic], validators := w.validators.set topic .frame }

def seen (w : Node π τ) (topic : τ) (now : Time) : Node π τ := { w with lastSeen := w.lastSeen.set topic now }

def deliverTo (sinks : List Sink) (author : π) (topic : τ) (data : Bytes) : List (Out π τ) :=
  sinks.map (fun s => .deliver s author topic data)

def pick (C : Config π τ) (w : Node π τ) (peer : π) (sink : Sink) (topic : τ) (now : Time) :
    Node π τ × List (Out π τ) :=
  let c := w.quota.claim C.perPeer peer topic
  if c.1 = false ∨ topic ∉ w.topics ∧ C.maxTopics ≤ w.topics.length then
    ({ w with quota := c.2.release peer topic }, [.refused sink topic])
  else
    let w := if topic ∈ w.topics then w else w.join topic
    let w := w.seen topic now
    ({ w with quota := c.2, picks := w.picks.add peer topic sink },
      .picked sink topic ::
        if topic = C.loadTopic then
          (snapshot w.loadCache now).map (fun e => .deliver sink e.author C.loadTopic e.data)
        else [])

def drop (w : Node π τ) (peer : π) (sink : Sink) (topic : τ) : Node π τ :=
  let d := w.picks.drop peer topic sink
  { w with picks := d.2, quota := if d.1 then w.quota.release peer topic else w.quota }

def push (C : Config π τ) (w : Node π τ) (peer : π) (sink : Sink) (topic : τ) (data : Bytes) :
    Node π τ × List (Out π τ) :=
  if topic = C.loadTopic ∨ oversize data then (w, [.ack sink topic 0])
  else ({ w with pushing := w.pushing ++ [⟨peer, sink, topic, data⟩] }, [.publish topic data])

def pushed (w : Node π τ) (k recipients : Nat) (now : Time) : Node π τ × List (Out π τ) :=
  match w.pushing[k]? with
  | none => (w, [])
  | some u =>
    let sinks := w.picks.sinksFor u.topic (some u.peer)
    ({ w.seen u.topic now with pushing := w.pushing.eraseIdx k },
      deliverTo sinks u.peer u.topic u.data ++ [.ack u.sink u.topic (recipients + sinks.length)])

def bye (w : Node π τ) (peer : π) (sink : Sink) : Node π τ :=
  let f := w.picks.forget peer sink
  { w with picks := f.2, quota := f.1.foldl (fun q t => q.release peer t) w.quota }

/-- The quota's answer to a subscription; siblings are exempt. -/
def granted (C : Config π τ) (w : Node π τ) (peer : π) (topic : τ) : Bool × Quota π τ :=
  if peer ∈ C.siblings then (true, w.quota) else w.quota.claim C.perPeer peer topic

def subscription (C : Config π τ) (w : Node π τ) (peer : π) (topic : τ) (subscribe : Bool) (now : Time) : Node π τ :=
  if subscribe then
    if shouldJoin C peer then
      let c := w.granted C peer topic
      let w := { w with quota := c.2 }
      if c.1 then
        if topic ∉ w.topics ∧ w.topics.length < C.maxTopics then (w.join topic).seen topic now else w
      else w
    else w
  else { w with quota := w.quota.release peer topic }

/-- What the topic's validator says; a topic without one accepts. -/
def validate (C : Config π τ) (w : Node π τ) (author : π) (topic : τ) (data : Bytes) : Bool :=
  (w.validators.get topic).elim true (fun v => v.accepts C author data)

def message (C : Config π τ) (w : Node π τ) (author : π) (topic : τ) (data : Bytes) (now : Time) :
    Node π τ × List (Out π τ) :=
  if topic ∈ w.topics ∧ w.validate C author topic data then
    let w := w.seen topic now
    let put := if topic = C.loadTopic then putLoad C w.loadCache author data now else (false, w.loadCache)
    ({ w with loadCache := put.2 },
      .forward author topic data :: ((if put.1 then [.cached author data] else []) ++
        deliverTo (w.picks.sinksFor topic (some author)) author topic data))
  else (w, [])

/-- May the idle sweep drop this topic? -/
def evictable (C : Config π τ) (w : Node π τ) (now : Time) (topic : τ) : Bool :=
  w.picks.holders topic = 0 && decide (C.idleTtl < now - (w.lastSeen.get topic).getD 0)

def evict (w : Node π τ) (topic : τ) : Node π τ :=
  { w with topics := w.topics.filter (fun t => t ≠ topic), validators := w.validators.delete topic,
           lastSeen := w.lastSeen.delete topic }

def sweepTopic (C : Config π τ) (now : Time) (w : Node π τ) (topic : τ) : Node π τ :=
  if w.evictable C now topic then w.evict topic else w

def sweep (C : Config π τ) (w : Node π τ) (now : Time) : Node π τ := w.topics.foldl (sweepTopic C now) w

/-- Subscribed directly, with a validator of its own; a topic already there is not added again. -/
def setUpLoad (C : Config π τ) (w : Node π τ) : Node π τ :=
  if w.loadReady then w
  else
    { w with loadReady := true, validators := w.validators.set C.loadTopic .load,
             topics := if C.loadTopic ∈ w.topics then w.topics else w.topics ++ [C.loadTopic] }

def announce (C : Config π τ) (w : Node π τ) (mine : Bytes) (now : Time) : Node π τ × List (Out π τ) :=
  let put := putLoad C w.loadCache C.self mine now
  ({ w with loadCache := put.2 },
    (if put.1 then [.cached C.self mine] else []) ++ .publish C.loadTopic mine ::
      deliverTo (w.picks.sinksFor C.loadTopic none) C.self C.loadTopic mine)

def act (C : Config π τ) (w : Node π τ) : Event π τ → Node π τ × List (Out π τ)
  | .pick peer sink topic now => w.pick C peer sink topic now
  | .drop peer sink topic => (w.drop peer sink topic, [])
  | .push peer sink topic data => w.push C peer sink topic data
  | .pushed k recipients now => w.pushed k recipients now
  | .bye peer sink => (w.bye peer sink, [])
  | .subscription peer topic subscribe now => (w.subscription C peer topic subscribe now, [])
  | .message author topic data now => w.message C author topic data now
  | .sweep now => (w.sweep C now, [])
  | .disconnect peer => ({ w with quota := w.quota.forget peer }, [])
  | .setUpLoad => (w.setUpLoad C, [])
  | .announce mine now => w.announce C mine now

end Node

end EncedoChat.Relay
