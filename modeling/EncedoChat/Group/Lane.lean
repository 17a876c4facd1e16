import EncedoChat.Lib.Run
import EncedoChat.Group.SenderKey
import EncedoChat.Group.Session

/-!
# What a session holds of one member

`receive`, `setSenderKey` and `release` of `GroupSession`, for the frames and keys of one other member, cut at
their awaits. A receiver is an object: an opening goes on with the one it took, whichever the session has by
then. `release` is not awaited by `setSenderKey`, so it runs beside everything else.
-/

namespace EncedoChat.Group

variable {S : Suite} {I : Identities}

def HOLD_MAX : Nat := 32
def HOLD_MS : Time := 120000

/-- `xs.slice(-n)`, for a positive `n`. -/
def lastN {α : Type} (n : Nat) (xs : List α) : List α := xs.drop (xs.length - n)

/-- A frame held for want of its sender's key. -/
structure Held where
  frame : Bytes
  since : Time
  deriving DecidableEq

/-- What a call of `receive` waits for. -/
inductive Receiving (S : Suite) (I : Identities) where
  /-- the MAC -/
  | checking (frame : Bytes)
  /-- `recv.open`, past its last look at the receiver before the AEAD answers -/
  | opening (obj : Nat) (c : Candidate S.Key) (a : Session.Accepted I)

/-- Who called `receive`: the application, or a release with what is left of its queue. -/
inductive Caller where
  | app
  | release (x : Held) (todo keep : List Held)

structure Task (S : Suite) (I : Identities) where
  phase : Receiving S I
  /-- the throwaway receiver of the release -/
  use : Option Nat
  caller : Caller

structure Delivery where
  header : Bytes
  ct : Bytes
  pt : Bytes

def Delivery.ctr (d : Delivery) : Nat := (decodeHeader d.header).ctr

structure Lane (S : Suite) (I : Identities) where
  session : Session I
  member : I.Pub
  /-- every receiver made for the member -/
  heap : List (SenderReceiver S)
  /-- `receivers.get(member)` -/
  cur : Option Nat
  /-- `held.get(member)` -/
  held : Option (List Held)
  tasks : OrdMap Nat (Task S I)
  /-- what `receive` returned and `onHeldOpened` was given, newest first -/
  delivered : List Delivery
  /-- how often `onNeedSenderKey` asked for the key -/
  asks : Nat

/-- Calls and their continuations; the clock is read as `t`. -/
inductive LaneAct (S : Suite) where
  | receive (id : Nat) (frame : Bytes)
  | setSenderKey (id : Nat) (chainKey : S.Key) (ctr : Nat) (t : Time)
  | resume (id : Nat) (opens : Open S) (t : Time)

namespace Lane

def start (v : Session I) (member : I.Pub) : Lane S I := ⟨v, member, [], none, none, .empty, [], 0⟩

/-- The receiver that the session has for the member. -/
def live (l : Lane S I) : Option (SenderReceiver S) := l.cur.bind (l.heap[·]?)

/-- The loop of `release`, from the start or after a frame: `receive` is called for the next one. -/
def releaseNext (l : Lane S I) (id : Nat) (use : Option Nat) (keep : List Held) : List Held → Lane S I
  | [] =>
    { l with
      tasks := l.tasks.delete id
      held := if keep = [] then l.held else some (lastN HOLD_MAX (keep ++ l.held.getD [])) }
  | x :: todo => { l with tasks := l.tasks.set id ⟨.checking x.frame, use, .release x todo keep⟩ }

/-- The frames held that are not too old. -/
def heldSince (l : Lane S I) (t : Time) : List Held := (l.held.getD []).filter fun x => decide (t - x.since < HOLD_MS)

/-- `release` up to its first await; what is too old is passed over. -/
def release (l : Lane S I) (id : Nat) (use : Option Nat) (t : Time) : Lane S I :=
  { l with held := none }.releaseNext id use [] (l.heldSince t)

/-- A call of `receive` ends, having opened its frame or not. -/
def settle (l : Lane S I) (id : Nat) (T : Task S I) (opened : Bool) : Lane S I :=
  match T.caller with
  | .app => { l with tasks := l.tasks.delete id }
  | .release x todo keep => l.releaseNext id T.use (if opened then keep else keep ++ [x]) todo

def hold (l : Lane S I) (frame : Bytes) (t : Time) : Lane S I :=
  let q := lastN (HOLD_MAX - 1) (l.heldSince t)
  { l with held := some (q ++ [⟨frame, t⟩]), asks := l.asks + 1 }

/-- `receive` once the MAC has been checked, up to the AEAD. A frame of another member is not this lane's. -/
def check (o : ReceiverOpts) (l : Lane S I) (id : Nat) (T : Task S I) (frame : Bytes) (t : Time) : Lane S I :=
  match l.session.accept frame with
  | none => l.settle id T false
  | some a =>
    if a.sender ≠ l.member then l.settle id T false
    else
      match T.use.or l.cur with
      | none => (l.hold frame t).settle id T false
      | some i =>
        match l.heap[i]? with
        | none => l.settle id T false
        | some r =>
          let l := { l with heap := l.heap.set i (r.prune o t) }
          match (r.prune o t).start o a.ctr with
          | .error .null => l.settle id T false
          | .error (.skipBound _ _) => { l with asks := l.asks + 1 }.settle id T false
          | .ok c => { l with tasks := l.tasks.set id { T with phase := .opening i c a } }

/-- `receive` once the AEAD has answered. -/
def finish (l : Lane S I) (id : Nat) (T : Task S I) (opens : Open S) (i : Nat) (c : Candidate S.Key)
    (a : Session.Accepted I) (t : Time) : Lane S I :=
  match l.heap[i]?, SenderReceiver.tryOpen opens c a.ctr a.header a.ct with
  | some r, some pt =>
    { l with
      heap := l.heap.set i (r.commit c a.ctr t)
      delivered := ⟨a.header, a.ct, pt⟩ :: l.delivered }.settle id T true
  | _, _ => l.settle id T false

def receive (l : Lane S I) (id : Nat) (frame : Bytes) : Lane S I :=
  match l.tasks.get id with
  | some _ => l
  | none => { l with tasks := l.tasks.set id ⟨.checking frame, none, .app⟩ }

/-- `setSenderKey`; `id` names the release it may start. -/
def setSenderKey (l : Lane S I) (id : Nat) (chainKey : S.Key) (ctr : Nat) (t : Time) : Lane S I :=
  if (l.tasks.get id).isSome then l
  else if l.member = l.session.me then l
  else
    let l' := { l with heap := l.heap ++ [SenderReceiver.make chainKey ctr] }
    if (l.live.any fun r => decide (ctr < r.n)) = true then
      if l.held.isSome then l'.release id (some l.heap.length) t else l
    else
      let l' := { l' with cur := some l.heap.length }
      if l.held.isSome then l'.release id none t else l'

def resume (o : ReceiverOpts) (l : Lane S I) (id : Nat) (opens : Open S) (t : Time) : Lane S I :=
  match l.tasks.get id with
  | none => l
  | some T =>
    match T.phase with
    | .checking frame => l.check o id T frame t
    | .opening i c a => l.finish id T opens i c a t

def act (o : ReceiverOpts) (l : Lane S I) : LaneAct S → Lane S I
  | .receive id frame => l.receive id frame
  | .setSenderKey id chainKey ctr t => l.setSenderKey id chainKey ctr t
  | .resume id opens t => l.resume o id opens t

end Lane

end EncedoChat.Group
