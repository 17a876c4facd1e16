import EncedoChat.Presence.Replay

/-!
# The watch of a pair's topic

`watchPresence` of `lib/presence.ts`. Every await is a step of its own, and the timers fire when they like until `stop`
clears them. Log lines are left out.
-/

namespace EncedoChat.Presence

open SelfSession (Mac buildAnnounce)

structure PairWatch (M : Mac) (τ : Type) where
  topic : τ
  macKey : M.Key
  ears : Ears M
  lastSeen : Time
  online : Bool
  stopped : Bool
  /-- who announced here, and when -/
  heard : OrdMap String Time
  lastReply : Time
  /-- the announces that are being built -/
  announcing : Nat

namespace PairWatch

structure Opts where
  heartbeatMs : Int
  reply : Bool

def Opts.ttlMs (o : Opts) : Int := max (o.heartbeatMs * 6) 90000

/-- What comes on a topic: a frame of a handshake, or anything else. -/
inductive Frame (β : Type) where
  | handshake (bytes : β)
  | other (data : Option Json)

/-- What a watch does outside. -/
inductive Out (τ β : Type) where
  | subscribe (topic : τ)
  | unsubscribe (topic : τ)
  | publish (topic : τ) (frm : String) (data : Json)
  | onOnline
  | onOffline
  | onIncomingHandshake (bytes : β) (frm : String)

inductive Event (M : Mac) (τ β : Type) where
  /-- the transport hands over a frame -/
  | message (topic : τ) (frm : String) (frame : Frame β) (now : Time)
  /-- a call of `verifyAnnounce` settles -/
  | verified (n : Nat) (now : Time)
  /-- the heartbeat, an early beacon, or `announce` -/
  | announce
  /-- an announce is built -/
  | built (nonce : String) (ts : Time)
  | sweep (now : Time)

variable {M : Mac} {τ β : Type} [DecidableEq τ] (o : Opts) (self : String) (v : PairWatch M τ)

/-- The call of `watchPresence`. -/
def start (topic : τ) (macKey : M.Key) : PairWatch M τ × List (Out τ β) :=
  (⟨topic, macKey, .start, 0, false, false, .empty, 0, 1⟩, [.subscribe topic])

/-- `announce`, up to its await. -/
def announce : PairWatch M τ := if v.stopped then v else { v with announcing := v.announcing + 1 }

def built (nonce : String) (ts : Time) : PairWatch M τ × List (Out τ β) :=
  if v.announcing = 0 then (v, [])
  else
    ({ v with announcing := v.announcing - 1 }, [.publish v.topic self (buildAnnounce M self v.macKey nonce ts)])

/-- The handler, up to its call of `verifyAnnounce`. -/
def onMessage (topic : τ) (frm : String) (frame : Frame β) (now : Time) : PairWatch M τ × List (Out τ β) :=
  if v.stopped ∨ topic ≠ v.topic ∨ frm = self then (v, [])
  else
    match frame with
    | .handshake bytes => (v, [.onIncomingHandshake bytes frm])
    | .other data => ({ v with ears := v.ears.listen data v.macKey now }, [])

/-- A newcomer is answered at once. -/
def note (peer : String) (now : Time) : PairWatch M τ :=
  let fresh := (v.heard.get peer).all fun t => o.ttlMs < now - t
  let v := { v with lastSeen := now, heard := v.heard.set peer now }
  if fresh ∧ o.reply ∧ 3000 < now - v.lastReply then { v with lastReply := now }.announce else v

/-- What an announce that counts does. -/
def hear (peer : String) (now : Time) : PairWatch M τ × List (Out τ β) :=
  let v := v.note o peer now
  if v.online then (v, []) else ({ v with online := true }, [.onOnline])

/-- The handler, from its call of `verifyAnnounce` on. -/
def onVerified (n : Nat) (now : Time) : PairWatch M τ × List (Out τ β) :=
  let r := v.ears.answer (Listener.watch.accepts self) n now
  let v := { v with ears := r.1 }
  match r.2 with
  | none => (v, [])
  | some (_, peer) => v.hear o peer now

def sweep (now : Time) : PairWatch M τ × List (Out τ β) :=
  if v.stopped = false ∧ v.online ∧ o.ttlMs < now - v.lastSeen then ({ v with online := false }, [.onOffline])
  else (v, [])

/-- `seen()` -/
def seen (now : Time) : List (String × Time × τ) :=
  (v.heard.entries.filter fun e => now - e.2 ≤ o.ttlMs).map fun e => (e.1, e.2, v.topic)

def stop (unsubscribe : Bool) (keep : τ → Bool) : PairWatch M τ × List (Out τ β) :=
  ({ v with stopped := true }, if unsubscribe && !keep v.topic then [.unsubscribe v.topic] else [])

def act : Event M τ β → PairWatch M τ × List (Out τ β)
  | .message topic frm frame now => v.onMessage self topic frm frame now
  | .verified n now => v.onVerified o self n now
  | .announce => (v.announce, [])
  | .built nonce ts => v.built self nonce ts
  | .sweep now => v.sweep o now

variable {o self v}

/-! ## A watch is a listener -/

/-- What a step is for the listener, if it is anything to it. -/
def Event.heard (self : String) (v : PairWatch M τ) : Event M τ β → Time → Listening.Act M
  | .message topic frm (.other data) now, clock =>
    if v.stopped ∨ topic ≠ v.topic ∨ frm = self then .pass clock else .arrive data v.macKey now
  | .verified n now, _ => .verified n now
  | _, clock => .pass clock

theorem ears_announce : v.announce.ears = v.ears := by
  rw [announce]
  split <;> rfl

theorem ears_note (peer : String) (now : Time) : (v.note o peer now).ears = v.ears := by
  rw [note]
  split
  · exact ears_announce
  · rfl

theorem ears_hear (peer : String) (now : Time) : (v.hear (β := β) o peer now).1.ears = v.ears := by
  rw [hear]
  split <;> exact ears_note ..

theorem ears_act (e : Event M τ β) (clock : Time) (acted : List (Heard M)) : (v.act o self e).1.ears =
    (Listening.act (Listener.watch.accepts self) ⟨v.ears, clock, acted⟩ (e.heard self v clock)).ears := by
  cases e with
  | message topic frm frame now =>
      rw [act]
      unfold onMessage
      cases frame with
      | handshake bytes => split <;> rfl
      | other data =>
          rw [Event.heard]
          split <;> rfl
  | verified n now =>
      simp only [act, onVerified, Event.heard, Listening.act]
      split
      · rfl
      · exact ears_hear ..
  | announce => exact ears_announce
  | built nonce ts =>
      rw [act, built]
      split <;> rfl
  | sweep now =>
      rw [act, sweep]
      split <;> rfl

/-! ## What a step changes -/

/-- A watch keeps its topic, and tells when it goes online or offline. -/
structure Stays (v v' : PairWatch M τ) (outs : List (Out τ β)) : Prop where
  topic : v'.topic = v.topic
  stopped : v'.stopped = v.stopped
  told : (v'.online = v.online ∧ .onOnline ∉ outs ∧ .onOffline ∉ outs) ∨
    (v'.online = true ∧ outs = [.onOnline]) ∨ (v'.online = false ∧ outs = [.onOffline])

theorem Stays.of_eq {v' : PairWatch M τ} {outs : List (Out τ β)} (htopic : v'.topic = v.topic)
    (hstopped : v'.stopped = v.stopped) (honline : v'.online = v.online) (houts : .onOnline ∉ outs ∧ .onOffline ∉ outs) :
    Stays v v' outs :=
  ⟨htopic, hstopped, .inl ⟨honline, houts⟩⟩

theorem stays_announce : Stays v v.announce ([] : List (Out τ β)) := by
  rw [announce]
  split <;> exact .of_eq rfl rfl rfl ⟨List.not_mem_nil, List.not_mem_nil⟩

theorem stays_note (peer : String) (now : Time) : Stays v (v.note o peer now) ([] : List (Out τ β)) := by
  rw [note]
  split
  · have h := stays_announce (β := β) (v := { v with lastSeen := now, heard := v.heard.set peer now, lastReply := now })
    exact ⟨h.topic, h.stopped, h.told⟩
  · exact .of_eq rfl rfl rfl ⟨List.not_mem_nil, List.not_mem_nil⟩

theorem stays_hear (peer : String) (now : Time) :
    Stays v (v.hear (β := β) o peer now).1 (v.hear (β := β) o peer now).2 := by
  have h := stays_note (β := β) (o := o) (v := v) peer now
  rw [hear]
  split
  · exact h
  · exact ⟨h.topic, h.stopped, .inr (.inl ⟨rfl, rfl⟩)⟩

theorem stays_act (e : Event M τ β) : Stays v (v.act o self e).1 (v.act o self e).2 := by
  cases e with
  | message topic frm frame now =>
      rw [act]
      unfold onMessage
      split
      · exact .of_eq rfl rfl rfl ⟨List.not_mem_nil, List.not_mem_nil⟩
      · cases frame with
        | handshake bytes => exact .of_eq rfl rfl rfl ⟨by simp, by simp⟩
        | other data => exact .of_eq rfl rfl rfl ⟨List.not_mem_nil, List.not_mem_nil⟩
  | verified n now =>
      simp only [act, onVerified]
      split
      · exact .of_eq rfl rfl rfl ⟨List.not_mem_nil, List.not_mem_nil⟩
      · have h := stays_hear (β := β) (o := o)
          (v := { v with ears := (v.ears.answer (Listener.watch.accepts self) n now).1 }) ‹_› now
        exact ⟨h.topic, h.stopped, h.told⟩
  | announce => exact stays_announce
  | built nonce ts =>
      rw [act, built]
      split <;> exact .of_eq rfl rfl rfl ⟨by simp, by simp⟩
  | sweep now =>
      rw [act, sweep]
      split
      · exact ⟨rfl, rfl, .inr (.inr ⟨rfl, rfl⟩)⟩
      · exact .of_eq rfl rfl rfl ⟨List.not_mem_nil, List.not_mem_nil⟩

end PairWatch

end EncedoChat.Presence
