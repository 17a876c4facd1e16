import EncedoChat.Xfer.Transfer

/-!
# A transfer in a conversation

`createXferSession` of `lib/xfer-session.ts`. The pump is an asynchronous loop: it is cut at its two awaits, and what
it holds across them is its own.
-/

namespace EncedoChat.Xfer

variable {μ : Type}

/-- `host.direct()` and what its `send` does now. -/
inductive Link where
  /-- `null` -/
  | down
  /-- `send` throws -/
  | broken
  | up
  deriving DecidableEq

inductive Dir where
  | in_
  | out
  deriving DecidableEq

inductive XferEv (μ : Type) where
  | offer (id size : Nat) (card : μ)
  | accepted
  | progress (dir : Dir) (done total : Nat)
  | done (id : Nat)
  | received (id : Nat) (card : μ) (blob : Bytes)
  | failed (dir : Dir) (why : Why)
  deriving DecidableEq

inductive OfferResult where
  | ok
  | busy
  | noChannel
  | tooBig
  | empty
  | noteTooBig
  | offerTooBig
  deriving DecidableEq

/-- Where the pump waits, with what it holds. -/
inductive Pump where
  /-- `await d.drain()` -/
  | drain (i : Nat)
  /-- `await file.slice(…).arrayBuffer()`: the bytes of the file it was called on -/
  | slice (i : Nat) (body : Bytes)
  deriving DecidableEq

structure Session (μ : Type) where
  send : Option (Sender μ)
  recv : Option (Receiver μ)
  file : Option Bytes
  /-- `pumping`, and where -/
  pump : Option Pump

/-- What a turn puts on the channel and tells the application. -/
structure Out (μ : Type) where
  frames : List (Frame μ) := []
  evs : List (XferEv μ) := []

def Out.append (a b : Out μ) : Out μ := ⟨a.frames ++ b.frames, a.evs ++ b.evs⟩

instance : Append (Out μ) := ⟨Out.append⟩

namespace Out

@[simp] theorem append_frames (a b : Out μ) : (a ++ b).frames = a.frames ++ b.frames := rfl

@[simp] theorem append_evs (a b : Out μ) : (a ++ b).evs = a.evs ++ b.evs := rfl

@[simp] theorem append_empty (a : Out μ) : a ++ {} = a := by
  have h : a ++ {} = (⟨a.frames ++ [], a.evs ++ []⟩ : Out μ) := rfl
  rw [h, List.append_nil, List.append_nil]

end Out

/-- The bounds on the note and on the whole offer, which the text of an offer decides. -/
structure Bounds (μ : Type) where
  noteFits : μ → Bool
  offerFits : Offer μ → Bool

namespace Session

def start : Session μ := ⟨none, none, none, none⟩

/-- `try { host.direct()?.send(f) } catch {}` -/
def trySend (link : Link) (f : Frame μ) : Out μ := ⟨if link = .up then [f] else [], []⟩

/-- The pump goes on with what it holds. -/
def clear (x : Session μ) : Session μ := { x with send := none, recv := none, file := none }

/-- One event of `emit`. -/
def emitOne (link : Link) (dir : Dir) (r : Session μ × Out μ) (e : Ev μ) : Session μ × Out μ :=
  match e with
  | .tell f => (r.1, r.2 ++ trySend link f)
  | .progress done total => (r.1, r.2 ++ ⟨[], [.progress dir done total]⟩)
  | .accepted => (r.1, r.2 ++ ⟨[], [.accepted]⟩)
  | .failed why => (r.1.clear, r.2 ++ ⟨[], [.failed dir why]⟩)
  | .done =>
    if dir = .out then (r.1.clear, r.2 ++ ⟨[], [.done ((r.1.send.map (fun s => s.offer.id)).getD 0)]⟩) else r

def emit (x : Session μ) (link : Link) (evs : List (Ev μ)) (dir : Dir) : Session μ × Out μ :=
  evs.foldl (emitOne link dir) (x, {})

def tickSend (x : Session μ) (link : Link) (now : Time) : Session μ × Out μ :=
  match x.send with
  | some s =>
    let t := s.tick now
    ({ x with send := some t.1 }).emit link t.2 .out
  | none => (x, {})

def tickRecv (x : Session μ) (link : Link) (now : Time) : Session μ × Out μ :=
  match x.recv with
  | some v =>
    let t := v.tick now
    ({ x with recv := some t.1 }).emit link t.2 .in_
  | none => (x, {})

/-- The timer. -/
def tick (x : Session μ) (link : Link) (now : Time) : Session μ × Out μ :=
  let r := x.tickSend link now
  let r' := r.1.tickRecv link now
  (r'.1, r.2 ++ r'.2)

/-- The bytes of one chunk of a file. -/
def chunkOf (file : Bytes) (i : Nat) : Bytes := file.slice (i * CHUNK) (min (i * CHUNK + CHUNK) file.length)

/-- The loop of the pump, up to its first await. -/
def pumpLoop (x : Session μ) (link : Link) : Session μ × Out μ :=
  match x.send with
  | none => ({ x with pump := none }, {})
  | some s =>
    match s.next with
    | none => ({ x with pump := none }, {})
    | some i =>
      if x.file = none then ({ x with pump := none }, {})
      else if link = .down then ({ x with pump := none }).emit link [.failed .channel] .out
      else ({ x with pump := some (.drain i) }, {})

/-- `pump()`. -/
def startPump (x : Session μ) (link : Link) : Session μ × Out μ :=
  match x.pump with
  | some _ => (x, {})
  | none => x.pumpLoop link

/-- The channel has drained: the slice of the file there is now. -/
def drained (x : Session μ) (i : Nat) : Session μ × Out μ :=
  match x.send, x.file with
  | some s, some file =>
    if s.state = .sending then ({ x with pump := some (.slice i (chunkOf file i)) }, {})
    else ({ x with pump := none }, {})
  | _, _ => ({ x with pump := none }, {})

/-- The slice has been read: it goes out as a chunk of the sender there is now. -/
def sliced (x : Session μ) (link : Link) (i : Nat) (body : Bytes) : Session μ × Out μ :=
  match x.send with
  | some s =>
    if s.state = .sending then
      let c := s.chunk i body
      let x := { x with send := some c.1 }
      if link = .up then
        let r := x.pumpLoop link
        (r.1, ⟨[c.2], []⟩ ++ r.2)
      else ({ x with pump := none }).emit link [.failed .channel] .out
    else ({ x with pump := none }, {})
  | none => ({ x with pump := none }, {})

/-- What the pump waits for is there. -/
def resume (x : Session μ) (link : Link) : Session μ × Out μ :=
  match x.pump with
  | none => (x, {})
  | some (.drain i) => x.drained i
  | some (.slice i body) => x.sliced link i body

/-- What the pump waits for fails. -/
def abandon (x : Session μ) : Session μ := { x with pump := none }

def offer (B : Bounds μ) (x : Session μ) (file : Bytes) (card : μ) (id : Nat) (link : Link) (now : Time) :
    OfferResult × Session μ × Out μ :=
  if x.send.isSome ∨ x.recv.isSome then (.busy, x, {})
  else if link = .down then (.noChannel, x, {})
  else if file.length > MAX_DIRECT then (.tooBig, x, {})
  else if file.length = 0 then (.empty, x, {})
  else if B.noteFits card = false then (.noteTooBig, x, {})
  else
    let s := createSender file.length card id
    if B.offerFits s.offer = false then (.offerTooBig, x, {})
    else
      let o := s.open_ now
      (.ok, { x with file := some file, send := some o.1 }, trySend link o.2)

def accept (x : Session μ) (link : Link) (now : Time) : Session μ × Out μ :=
  match x.recv with
  | none => (x, {})
  | some v =>
    if v.state = .offered then
      if link = .down then (x.clear, ⟨[], [.failed .in_ .channel]⟩)
      else
        let a := v.accept now
        ({ x with recv := some a.1 }, trySend link a.2)
    else (x, {})

def reject (x : Session μ) (link : Link) : Session μ × Out μ :=
  match x.recv with
  | none => (x, {})
  | some v => (x.clear, trySend link v.reject.2)

def cancel (x : Session μ) (link : Link) : Session μ × Out μ :=
  match x.send with
  | some s => (x.clear, trySend link s.cancel.2 ++ ⟨[], [.failed .out .cancelledLocal]⟩)
  | none =>
    match x.recv with
    | some v => (x.clear, trySend link v.cancel.2 ++ ⟨[], [.failed .in_ .cancelledLocal]⟩)
    | none => (x, {})

/-- A refusal is always answered. -/
def refuse (x : Session μ) (link : Link) (o : Offer μ) (why : Why) : Session μ × Out μ :=
  (x, trySend link (createReceiver o).reject.2 ++ ⟨[], [.failed .in_ why]⟩)

def onOffer (B : Bounds μ) (x : Session μ) (link : Link) (o : Offer μ) : Session μ × Out μ :=
  match if B.offerFits o then decodeOffer o else none with
  | none => (x, trySend link (.reject o.id))
  | some o =>
    if x.send.isSome ∨ x.recv.isSome then x.refuse link o .busy
    else if o.size > MAX_DIRECT then x.refuse link o .tooBig
    else if o.size = 0 then x.refuse link o .empty
    else ({ x with recv := some (createReceiver o) }, ⟨[], [.offer o.id o.size o.card]⟩)

def toSender (x : Session μ) (link : Link) (s : Sender μ) (f : Frame μ) (now : Time) : Session μ × Out μ :=
  let t := s.onFrame f now
  let r := ({ x with send := some t.1 }).emit link t.2 .out
  if t.2.any Ev.isAccepted then
    let p := r.1.startPump link
    (p.1, r.2 ++ p.2)
  else r

/-- The file is complete: what was kept of it is handed over. -/
def finish (x : Session μ) (finished : Bool) : Session μ × Out μ :=
  match x.recv with
  | some v => if finished then (x.clear, ⟨[], [.received v.offer.id v.offer.card v.parts.flatten]⟩) else (x, {})
  | none => (x, {})

def toReceiver (x : Session μ) (link : Link) (v : Receiver μ) (f : Frame μ) (now : Time) : Session μ × Out μ :=
  let t := v.onFrame f now
  let reply := match t.2.2 with
    | some g => trySend link g
    | none => {}
  let r := ({ x with recv := some t.1 }).emit link (t.2.1.filter (fun e => !e.isDone)) .in_
  let d := r.1.finish (t.2.1.any Ev.isDone)
  (d.1, reply ++ r.2 ++ d.2)

def onFrame (B : Bounds μ) (x : Session μ) (link : Link) (f : Frame μ) (now : Time) : Session μ × Out μ :=
  match f with
  | .offer o => x.onOffer B link o
  | f =>
    match x.send, x.recv with
    | some s, _ => x.toSender link s f now
    | none, some v => x.toReceiver link v f now
    | none, none => (x, {})

/-- `stop()`; its timer is not run any more. -/
def stop (x : Session μ) : Session μ := x.clear

end Session

end EncedoChat.Xfer
