import EncedoChat.Lib.Bytes
import EncedoChat.Lib.OrdMap

/-!
# The light transport

`pickAdapter` of `net/light.ts` over the streams that `createLightPeer` opens, and the relay at their other end, which
reads what a stream carries one frame after another and answers each PICK and each PUSH. What the two have sent and not
read stays in the stream, however long. A PICK, a PUSH and their answers carry a number the wire does not have: which
one it is.
-/

namespace EncedoChat.Light

variable {ρ τ : Type} [DecidableEq ρ] [DecidableEq τ]

/-- What the client sends. -/
inductive Up (τ : Type) where
  | pick (topic : τ) (k : Nat)
  | drop (topic : τ)
  | push (topic : τ) (data : Bytes) (k : Nat)
  deriving DecidableEq

/-- What the relay sends. -/
inductive Down (τ : Type) where
  | picked (topic : τ) (k : Nat)
  | refused (topic : τ) (k : Nat)
  | ack (topic : τ) (recipients k : Nat)
  | deliver (frm : String) (topic : τ) (data : Bytes)
  deriving DecidableEq

/-- A pick stream, with all that was ever sent on it. -/
structure Stream (ρ τ : Type) where
  relay : ρ
  /-- sent by the client, not read by the relay -/
  up : List (Up τ)
  /-- sent by the relay, not handled by the client -/
  down : List (Down τ)
  /-- the client's end is closed -/
  closed : Bool
  sent : List (Up τ)
  said : List (Down τ)

/-- A call of `publish`; `reach` is what its promise came to. -/
structure Publish (τ : Type) where
  topic : τ
  stream : Nat
  reach : Option (Option Nat)
  deriving DecidableEq

structure Peer (ρ τ : Type) where
  /-- what the engine asked for -/
  held : List τ
  /-- what the relay confirmed -/
  picked : List τ
  waitingAck : OrdMap τ (List Nat)
  stream : Option Nat
  relayId : Option ρ
  /-- the attach that owns the live stream, by the stream it opens -/
  current : Option Nat
  /-- the attaches whose `open` has not settled -/
  opening : List Nat
  streams : OrdMap Nat (Stream ρ τ)
  publishes : OrdMap Nat (Publish τ)
  /-- the next number of an attach, a PICK or a publish -/
  fresh : Nat

namespace Peer

variable (w : Peer ρ τ)

def start : Peer ρ τ := ⟨[], [], .empty, none, none, none, [], .empty, .empty, 0⟩

def put (s : Nat) (st : Stream ρ τ) : Peer ρ τ := { w with streams := w.streams.set s st }

/-- `resolve(n)` -/
def settle (k : Nat) (n : Option Nat) : Peer ρ τ :=
  match w.publishes.get k with
  | none => w
  | some p => if p.reach.isSome then w else { w with publishes := w.publishes.set k { p with reach := some n } }

def settleAll (n : Option Nat) (ks : List Nat) : Peer ρ τ := ks.foldl (fun w k => w.settle k n) w

/-- `onClose` -/
def onClose : Peer ρ τ :=
  { w.settleAll none (w.waitingAck.entries.flatMap Prod.snd) with stream := none, picked := [], waitingAck := .empty }

/-- What a stream does when it ends, `bye`: once, and then its attach is told. -/
def bye (s : Nat) : Peer ρ τ :=
  match w.streams.get s with
  | none => w
  | some st =>
    if st.closed then w
    else
      let w := w.put s { st with closed := true }
      if w.current = some s then { w with current := none }.onClose else w

/-- `s.send(frame)`; a closed stream takes nothing. -/
def send (s : Nat) (f : Up τ) : Peer ρ τ :=
  match w.streams.get s with
  | none => w
  | some st =>
    if st.closed then w
    else w.put s { st with up := st.up ++ [f], sent := st.sent ++ [f] }

/-- `stream?.send(encodePick(topic))` -/
def sendPick (topic : τ) : Peer ρ τ :=
  match w.stream with
  | none => w
  | some s => { w.send s (.pick topic w.fresh) with fresh := w.fresh + 1 }

/-- `attach`, up to its await; the stream it opens is there from now on. -/
def attach (toRelayId : ρ) : Peer ρ τ :=
  let w := w.stream.elim w w.bye
  { w with
    stream := none
    picked := []
    relayId := some toRelayId
    current := some w.fresh
    opening := w.opening ++ [w.fresh]
    streams := w.streams.set w.fresh ⟨toRelayId, [], [], false, [], []⟩
    fresh := w.fresh + 1 }

/-- `attach`, from there on. -/
def opened (s : Nat) : Peer ρ τ :=
  if s ∈ w.opening then
    let w := { w with opening := w.opening.erase s }
    if w.current = some s then w.held.foldl sendPick { w with stream := some s } else w.bye s
  else w

/-- `open` throws. -/
def openFailed (s : Nat) : Peer ρ τ := { w with opening := w.opening.erase s }

def detach : Peer ρ τ :=
  let w := { w with current := none }
  (w.stream.elim w w.bye).onClose

def subscribe (topic : τ) : Peer ρ τ :=
  if topic ∈ w.held then w else { w with held := w.held ++ [topic] }.sendPick topic

def unsubscribe (topic : τ) : Peer ρ τ :=
  if topic ∈ w.held then
    let w := { w with held := w.held.erase topic, picked := w.picked.erase topic }
    w.stream.elim w fun s => w.send s (.drop topic)
  else w

/-- The relay, once it has said PICKED; nobody before, nobody after a refusal. -/
def getSubscribers (topic : τ) : List ρ := if topic ∈ w.picked then w.relayId.toList else []

/-- `publish`, up to its await; without a stream it throws. -/
def publish (topic : τ) (data : Bytes) : Peer ρ τ :=
  match w.stream with
  | none => w
  | some s =>
    { w.send s (.push topic data w.fresh) with
      waitingAck := w.waitingAck.set topic ((w.waitingAck.get topic).getD [] ++ [w.fresh])
      publishes := w.publishes.set w.fresh ⟨topic, s, none⟩
      fresh := w.fresh + 1 }

/-- The timer of a publish; its waiter leaves the queue. -/
def timeout (k : Nat) : Peer ρ τ :=
  match w.publishes.get k with
  | none => w
  | some p =>
    if p.reach.isSome then w
    else
      { w with waitingAck := w.waitingAck.map fun t q => if t = p.topic then q.erase k else q }.settle k none

/-- `onFrame`; what the listeners do is a step of theirs. -/
def onFrame : Down τ → Peer ρ τ
  | .deliver .. => w
  | .picked topic _ =>
    if topic ∈ w.held ∧ topic ∉ w.picked then { w with picked := w.picked ++ [topic] } else w
  | .refused topic _ => { w with picked := w.picked.erase topic }
  | .ack topic recipients _ =>
    match w.waitingAck.get topic with
    | none => w
    | some [] => { w with waitingAck := w.waitingAck.delete topic }
    | some (k :: q) =>
      { w with
        waitingAck := if q = [] then w.waitingAck.delete topic else w.waitingAck.set topic q }.settle k (some recipients)

/-! ## The other end -/

/-- What the relay makes of a frame: `some n` is the reach of a PUSH, and whether a PICK is accepted. -/
def answer (f : Up τ) (ok : Bool) (n : Nat) : List (Down τ) :=
  match f with
  | .pick topic k => if ok then [.picked topic k] else [.refused topic k]
  | .drop _ => []
  | .push topic _ k => [.ack topic n k]

/-- The relay reads the next frame of a stream, and answers it. -/
def serve (s : Nat) (ok : Bool) (n : Nat) : Peer ρ τ :=
  match w.streams.get s with
  | none => w
  | some st =>
    match st.up with
    | [] => w
    | f :: fs =>
      w.put s { st with up := fs, down := st.down ++ answer f ok n, said := st.said ++ answer f ok n }

/-- The relay hands on a frame of somebody else. -/
def relayed (s : Nat) (frm : String) (topic : τ) (data : Bytes) : Peer ρ τ :=
  match w.streams.get s with
  | none => w
  | some st =>
    w.put s { st with down := st.down ++ [.deliver frm topic data], said := st.said ++ [.deliver frm topic data] }

/-- The next frame of a stream comes to the handler, that of any stream ever opened. -/
def arrive (s : Nat) : Peer ρ τ :=
  match w.streams.get s with
  | none => w
  | some st =>
    match st.down with
    | [] => w
    | f :: fs => (w.put s { st with down := fs }).onFrame f

end Peer

inductive Event (ρ τ : Type) where
  | attach (toRelayId : ρ)
  | opened (s : Nat)
  | openFailed (s : Nat)
  | detach
  | subscribe (topic : τ)
  | unsubscribe (topic : τ)
  | publish (topic : τ) (data : Bytes)
  | timeout (k : Nat)
  | bye (s : Nat)
  | serve (s : Nat) (ok : Bool) (n : Nat)
  | relayed (s : Nat) (frm : String) (topic : τ) (data : Bytes)
  | arrive (s : Nat)

namespace Peer

def act (w : Peer ρ τ) : Event ρ τ → Peer ρ τ
  | .attach toRelayId => w.attach toRelayId
  | .opened s => w.opened s
  | .openFailed s => w.openFailed s
  | .detach => w.detach
  | .subscribe topic => w.subscribe topic
  | .unsubscribe topic => w.unsubscribe topic
  | .publish topic data => w.publish topic data
  | .timeout k => w.timeout k
  | .bye s => w.bye s
  | .serve s ok n => w.serve s ok n
  | .relayed s frm topic data => w.relayed s frm topic data
  | .arrive s => w.arrive s

/-! ## What a call does -/

omit [DecidableEq ρ] [DecidableEq τ] in
/-- What settling does: the one publish, if it still waits, and nothing else. -/
theorem settle_eq (w : Peer ρ τ) (k : Nat) (n : Option Nat) : w.settle k n = w ∨
    ∃ p, w.publishes.get k = some p ∧ p.reach = none ∧
      w.settle k n = { w with publishes := w.publishes.set k { p with reach := some n } } := by
  rw [settle]
  cases hp : w.publishes.get k with
  | none => exact .inl rfl
  | some p =>
      dsimp only
      cases hr : p.reach with
      | none => exact .inr ⟨p, rfl, hr, rfl⟩
      | some _ => exact .inl rfl

/-- Only the publishes change where some are settled. -/
theorem settle_same (w : Peer ρ τ) (k : Nat) (n : Option Nat) : (w.settle k n).streams = w.streams ∧
    (w.settle k n).stream = w.stream ∧ (w.settle k n).current = w.current ∧ (w.settle k n).waitingAck = w.waitingAck := by
  obtain heq | ⟨p, -, -, heq⟩ := w.settle_eq k n <;> rw [heq] <;> exact ⟨rfl, rfl, rfl, rfl⟩

theorem settleAll_same (w : Peer ρ τ) (n : Option Nat) (ks : List Nat) : (w.settleAll n ks).streams = w.streams ∧
    (w.settleAll n ks).current = w.current := by
  induction ks generalizing w with
  | nil => exact ⟨rfl, rfl⟩
  | cons k ks ih =>
      obtain ⟨hstreams, -, hcurrent, -⟩ := w.settle_same k n
      obtain ⟨h₁, h₂⟩ := ih (w.settle k n)
      exact ⟨h₁.trans hstreams, h₂.trans hcurrent⟩

omit [DecidableEq ρ] [DecidableEq τ] in
/-- What `bye` does to a stream that is open. -/
theorem bye_eq (w : Peer ρ τ) (s : Nat) : w.bye s = w ∧ (∀ st, w.streams.get s = some st → st.closed = true) ∨
    ∃ st, w.streams.get s = some st ∧ st.closed = false ∧
      (w.current ≠ some s ∧ w.bye s = w.put s { st with closed := true } ∨
        w.current = some s ∧ w.bye s = ({ w.put s { st with closed := true } with current := none } : Peer ρ τ).onClose) := by
  rw [bye]
  cases hst : w.streams.get s with
  | none => exact .inl ⟨rfl, fun st h => by cases h⟩
  | some st =>
      dsimp only
      by_cases hclosed : st.closed = true
      · rw [if_pos hclosed]
        exact .inl ⟨rfl, fun u hu => by cases hu; exact hclosed⟩
      · rw [if_neg hclosed]
        refine .inr ⟨st, rfl, Bool.eq_false_of_not_eq_true hclosed, ?_⟩
        by_cases hc : w.current = some s
        · exact .inr ⟨hc, if_pos hc⟩
        · exact .inl ⟨hc, if_neg hc⟩

omit [DecidableEq ρ] [DecidableEq τ] in
theorem send_fresh (w : Peer ρ τ) (s : Nat) (f : Up τ) : (w.send s f).fresh = w.fresh := by
  rw [send]
  split
  · rfl
  · split <;> rfl

end Peer

end EncedoChat.Light
