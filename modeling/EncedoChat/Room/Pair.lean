import EncedoChat.Lib.Run
import EncedoChat.Room.Chat

/-!
# Two rooms and a network

Two rooms send each other sealed frames over a network that may lose, repeat and reorder them. A room can be closed
and opened again under its PeerId.
-/

namespace EncedoChat.Room

inductive Side where
  | a
  | b
  deriving DecidableEq

def Side.other : Side → Side
  | .a => .b
  | .b => .a

/-- A room with its number, and what it has called since it was opened. -/
structure Seat (β : Type) where
  room : Chat β
  no : Nat
  log : List (Call β)

structure Pair (β : Type) where
  seat : Side → Seat β
  /-- every frame that was ever sent, with its sender -/
  wire : List (Side × Frame β)
  /-- every envelope that was built, with the number of its room -/
  made : List (Nat × Envelope β)
  /-- how many rooms there have been -/
  rooms : Nat

/-- What happens in one room, or to the network. -/
inductive Act (β : Type) where
  | sendTracked (t : Kind) (rest : β) (id : MsgId)
  | sendPlain (t : Kind) (rest : β) (id : MsgId)
  | sendGroupSkd (rest : β) (id : MsgId) (recent : Bool)
  | sendSignal (rest : β) (id : MsgId)
  | resend (id : MsgId)
  | flushPending
  | fire (timer : Nat)
  | repeatSkd (n : Nat)
  /-- one copy of what `emitContent` is at, for one of the sessions -/
  | sealCopy (env : Envelope β) (s : SessionId)
  /-- a frame of the other side comes in, under a PeerId -/
  | arrive (f : Frame β) (from_ : PeerId) (accepts : Bool) (draw : Chat.AckDraw β)
  /-- a handshake with `p` completes -/
  | install (p : PeerId) (s : SessionId)
  /-- an Announce -/
  | announced (p : PeerId)
  /-- a PeerId is dropped from presence, its session kept -/
  | vanish (p : PeerId)
  | sweep
  | reopen

namespace Act

variable {β : Type}

/-- A kind goes out the way the room sends it. -/
def Formed : Act β → Prop
  | sendTracked t _ _ => t.confirmed = true
  | sendPlain t _ _ => t.plain = true
  | _ => True

/-- The id an envelope of this turn gets, if it builds one. -/
def newId : Act β → Option MsgId
  | sendTracked _ _ id | sendPlain _ _ id | sendGroupSkd _ id _ | sendSignal _ id => some id
  | arrive _ _ _ draw => some draw.id
  | _ => none

end Act

/-- An action of a side, at a time, with or without a direct channel. -/
structure Move (β : Type) where
  side : Side
  act : Act β
  now : Time
  direct : Bool

namespace Chat

variable {β : Type}

/-- What a room does with an action of its own. -/
def turn (S : Settings) (c : Chat β) (now : Time) (direct : Bool) : Act β → Chat β × List (Call β)
  | .sendTracked t rest id => c.sendTracked S t rest id now direct
  | .sendPlain t rest id => c.sendPlain S t rest id
  | .sendGroupSkd rest id recent => c.sendGroupSkd S rest id recent
  | .sendSignal rest id => c.sendSignal rest id
  | .resend id => c.resend S id now direct
  | .flushPending => c.flushPending S now direct
  | .fire timer => c.fire S timer now direct
  | .repeatSkd n => (c.repeatSkd S n, [])
  | .arrive f from_ accepts draw => c.processSealed S f from_ accepts draw now direct
  | .install p s => c.install S p s now direct
  | .announced p => (c.touch p now, [])
  | .vanish p => ({ c with lastSeen := c.lastSeen.delete p }, [])
  | .sweep => c.sweep S now
  | .sealCopy _ _ => (c, [])
  | .reopen => (c, [])

end Chat

namespace Pair

variable {β : Type}

def start (selfA selfB : PeerId) : Pair β :=
  ⟨fun s => match s with
    | .a => ⟨.join selfA, 0, []⟩
    | .b => ⟨.join selfB, 1, []⟩, [], [], 2⟩

def put (w : Pair β) (s : Side) (seat : Seat β) : Side → Seat β := fun s' => if s' = s then seat else w.seat s'

/-- The envelopes that calls build. -/
def made? : Call β → Option (Envelope β)
  | .makes env => some env
  | _ => none

/-- A room has taken a turn. -/
def turned (w : Pair β) (s : Side) (r : Chat β × List (Call β)) : Pair β :=
  { w with
    seat := w.put s ⟨r.1, (w.seat s).no, (w.seat s).log ++ r.2⟩
    made := w.made ++ (r.2.filterMap made?).map (fun env => ((w.seat s).no, env)) }

/-- A room is closed, and another opened under its PeerId. -/
def reopened (w : Pair β) (s : Side) : Pair β :=
  { w with seat := w.put s ⟨.join (w.seat s).room.self, w.rooms, []⟩, rooms := w.rooms + 1 }

def act (S : Settings) (w : Pair β) (m : Move β) : Pair β :=
  match m.act with
  | .sealCopy env s => { w with wire := w.wire ++ [(m.side, ⟨s, env, (w.seat m.side).no⟩)] }
  | .reopen => w.reopened m.side
  | a => w.turned m.side ((w.seat m.side).room.turn S m.now m.direct a)

/-- No envelope has this id yet: the ids are random. -/
def NewId (w : Pair β) (id : MsgId) : Prop := ∀ x ∈ w.made, x.2.id ≠ id

/-- A copy is sealed for a session of its room, and what arrives was sent. -/
def Available (w : Pair β) (m : Move β) : Prop :=
  match m.act with
  | .sealCopy env s => env ∈ (w.seat m.side).room.sealing ∧ ∃ p, (w.seat m.side).room.sessions.get p = some s
  | .arrive f _ _ _ => (m.side.other, f) ∈ w.wire
  | _ => True

def CanHappen (w : Pair β) (m : Move β) : Prop :=
  m.act.Formed ∧ (∀ id, m.act.newId = some id → w.NewId id) ∧ w.Available m

instance (a : Act β) : Decidable a.Formed :=
  match a with
  | .sendTracked t _ _ => inferInstanceAs (Decidable (t.confirmed = true))
  | .sendPlain t _ _ => inferInstanceAs (Decidable (t.plain = true))
  | .sendGroupSkd .. | .sendSignal .. | .resend _ | .flushPending | .fire _ | .repeatSkd _ | .sealCopy ..
  | .arrive .. | .install .. | .announced _ | .vanish _ | .sweep | .reopen => isTrue trivial

instance (w : Pair β) (id : MsgId) : Decidable (w.NewId id) := inferInstanceAs (Decidable (∀ x ∈ w.made, x.2.id ≠ id))

instance (w : Pair β) (a : Act β) : Decidable (∀ id, a.newId = some id → w.NewId id) :=
  match h : a.newId with
  | none => isTrue fun _ h' => nomatch h'
  | some id => decidable_of_iff (w.NewId id) ⟨fun hn _ h' => Option.some.inj h' ▸ hn, fun hall => hall id rfl⟩

instance [DecidableEq β] (w : Pair β) (m : Move β) : Decidable (w.Available m) :=
  match m with
  | ⟨side, .sealCopy env s, _, _⟩ =>
    have : Decidable (∃ p, (w.seat side).room.sessions.get p = some s) :=
      decidable_of_iff (∃ e ∈ (w.seat side).room.sessions.entries, e.2 = s)
        ⟨fun ⟨e, he, hs⟩ => ⟨e.1, OrdMap.get_eq_some.mpr (hs ▸ he)⟩,
          fun ⟨p, hp⟩ => ⟨(p, s), OrdMap.get_eq_some.mp hp, rfl⟩⟩
    inferInstanceAs (Decidable (env ∈ (w.seat side).room.sealing ∧ _))
  | ⟨side, .arrive f _ _ _, _, _⟩ => inferInstanceAs (Decidable ((side.other, f) ∈ w.wire))
  | ⟨_, .sendTracked .., _, _⟩ | ⟨_, .sendPlain .., _, _⟩ | ⟨_, .sendGroupSkd .., _, _⟩ | ⟨_, .sendSignal .., _, _⟩
  | ⟨_, .resend _, _, _⟩ | ⟨_, .flushPending, _, _⟩ | ⟨_, .fire _, _, _⟩ | ⟨_, .repeatSkd _, _, _⟩
  | ⟨_, .install .., _, _⟩ | ⟨_, .announced _, _, _⟩ | ⟨_, .vanish _, _, _⟩ | ⟨_, .sweep, _, _⟩
  | ⟨_, .reopen, _, _⟩ => isTrue trivial

instance [DecidableEq β] (w : Pair β) (m : Move β) : Decidable (w.CanHappen m) :=
  inferInstanceAs (Decidable (_ ∧ _ ∧ _))

end Pair

end EncedoChat.Room
