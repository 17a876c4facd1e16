import EncedoChat.Lib.Bytes

/-!
# One file down a channel

The sender and the receiver of `lib/xfer.ts`. Frames are values of their own here; what an offer says of a file
beside its size (name, type, note) is carried unread.
-/

namespace EncedoChat.Xfer

abbrev Time := Int

/-- `DC_MAX_MESSAGE - CHUNK_HEADER` -/
def CHUNK : Nat := 65536 - 10

def MAX_DIRECT : Nat := 512 * 1024 * 1024

def ACCEPT_MS : Time := 30000

def STALL_MS : Time := 60000

/-- `Math.max(1, Math.ceil(size / CHUNK))` -/
def chunksOf (size : Nat) : Nat := max 1 ((size + (CHUNK - 1)) / CHUNK)

def receiptEvery (chunks : Nat) : Nat := max 1 ((chunks + 99) / 100)

structure Offer (μ : Type) where
  id : Nat
  size : Nat
  chunk : Nat
  chunks : Nat
  card : μ
  deriving DecidableEq

inductive Why where
  | rejected
  | timeout
  | cancelledLocal
  | cancelledPeer
  | tooBig
  | empty
  | busy
  | outOfOrder
  | badFrame
  | channel
  deriving DecidableEq

inductive Frame (μ : Type) where
  | offer (o : Offer μ)
  | accept (id : Nat)
  | reject (id : Nat)
  | chunk (id index : Nat) (body : Bytes)
  | receipt (id index : Nat)
  | cancel (id : Nat)
  | done (id : Nat)
  deriving DecidableEq

inductive Ev (μ : Type) where
  | accepted
  /-- a frame the peer must hear -/
  | tell (f : Frame μ)
  | progress (done total : Nat)
  | done
  | failed (why : Why)
  deriving DecidableEq

variable {μ : Type}

def Ev.isAccepted : Ev μ → Bool
  | accepted => true
  | _ => false

def Ev.isDone : Ev μ → Bool
  | done => true
  | _ => false

def Frame.id : Frame μ → Nat
  | offer o => o.id
  | accept id | reject id | chunk id _ _ | receipt id _ | cancel id | done id => id

/-- The geometry both sides must agree on. -/
def decodeOffer (o : Offer μ) : Option (Offer μ) :=
  if o.chunk = CHUNK ∧ o.chunks = chunksOf o.size then some o else none

/-! ## Sending -/

inductive SenderState where
  | offering
  | sending
  | done
  | failed
  deriving DecidableEq

structure Sender (μ : Type) where
  state : SenderState
  offer : Offer μ
  sentIdx : Nat
  /-- `ackedIdx + 1` -/
  acked : Nat
  last : Time

def createSender (size : Nat) (card : μ) (id : Nat) : Sender μ :=
  ⟨.offering, ⟨id, size, CHUNK, chunksOf size, card⟩, 0, 0, 0⟩

namespace Sender

def fail (s : Sender μ) (why : Why) : Sender μ × List (Ev μ) := ({ s with state := .failed }, [.failed why])

def open_ (s : Sender μ) (now : Time) : Sender μ × Frame μ := ({ s with last := now }, .offer s.offer)

def next (s : Sender μ) : Option Nat :=
  if s.state = .sending ∧ s.sentIdx < s.offer.chunks then some s.sentIdx else none

def chunk (s : Sender μ) (index : Nat) (body : Bytes) : Sender μ × Frame μ :=
  ({ s with sentIdx := index + 1 }, .chunk s.offer.id index body)

def cancel (s : Sender μ) : Sender μ × Frame μ := ({ s with state := .failed }, .cancel s.offer.id)

def tick (s : Sender μ) (now : Time) : Sender μ × List (Ev μ) :=
  if s.state = .offering ∧ now - s.last > ACCEPT_MS then
    let r := s.fail .timeout
    (r.1, .tell (.cancel s.offer.id) :: r.2)
  else if s.state = .sending ∧ now - s.last > STALL_MS then s.fail .channel
  else (s, [])

def onFrame (s : Sender μ) (f : Frame μ) (now : Time) : Sender μ × List (Ev μ) :=
  if f.id = s.offer.id then
    let s := { s with last := now }
    match f with
    | .accept _ => if s.state = .offering then ({ s with state := .sending }, [.accepted]) else (s, [])
    | .reject _ => if s.state = .offering then s.fail .rejected else (s, [])
    | .cancel _ => if s.state = .done then (s, []) else s.fail .cancelledPeer
    | .receipt _ i =>
      if s.state = .sending then
        let acked := max s.acked (i + 1)
        ({ s with acked := acked }, [.progress (min s.offer.size (acked * CHUNK)) s.offer.size])
      else (s, [])
    | .done _ =>
      if s.state = .sending then
        ({ s with state := .done }, [.progress s.offer.size s.offer.size, .done])
      else (s, [])
    | .offer _ | .chunk _ _ _ => (s, [])
  else (s, [])

end Sender

/-! ## Receiving -/

inductive ReceiverState where
  | offered
  | receiving
  | done
  | failed
  deriving DecidableEq

structure Receiver (μ : Type) where
  state : ReceiverState
  offer : Offer μ
  want : Nat
  got : Nat
  last : Time
  parts : List Bytes

def createReceiver (o : Offer μ) : Receiver μ := ⟨.offered, o, 0, 0, 0, []⟩

namespace Receiver

def fail (r : Receiver μ) (why : Why) : Receiver μ × List (Ev μ) := ({ r with state := .failed }, [.failed why])

def accept (r : Receiver μ) (now : Time) : Receiver μ × Frame μ :=
  ({ r with state := .receiving, last := now }, .accept r.offer.id)

def reject (r : Receiver μ) : Receiver μ × Frame μ := ({ r with state := .failed }, .reject r.offer.id)

def cancel (r : Receiver μ) : Receiver μ × Frame μ := ({ r with state := .failed }, .cancel r.offer.id)

def tick (r : Receiver μ) (now : Time) : Receiver μ × List (Ev μ) :=
  if r.state = .receiving ∧ now - r.last > STALL_MS then r.fail .channel else (r, [])

/-- A chunk in its place: kept, and answered every so often. -/
def take (r : Receiver μ) (body : Bytes) : Receiver μ × List (Ev μ) × Option (Frame μ) :=
  let r := { r with parts := r.parts ++ [body], got := r.got + body.length, want := r.want + 1 }
  let progress := Ev.progress r.got r.offer.size
  if r.want ≥ r.offer.chunks then
    ({ r with state := .done }, [progress, .done], some (.done r.offer.id))
  else if r.want % receiptEvery r.offer.chunks = 0 then
    (r, [progress], some (.receipt r.offer.id (r.want - 1)))
  else (r, [progress], none)

def onFrame (r : Receiver μ) (f : Frame μ) (now : Time) : Receiver μ × List (Ev μ) × Option (Frame μ) :=
  if f.id = r.offer.id then
    let r := { r with last := now }
    match f with
    | .cancel _ =>
      if r.state = .done then (r, [], none)
      else
        let x := r.fail .cancelledPeer
        (x.1, x.2, none)
    | .chunk _ i body =>
      if r.state = .receiving then
        if i = r.want then
          if body.length = min CHUNK (r.offer.size - r.got) then r.take body
          else
            let x := r.fail .badFrame
            (x.1, x.2, none)
        else
          let x := r.fail .outOfOrder
          (x.1, x.2, none)
      else (r, [], none)
    | .offer _ | .accept _ | .reject _ | .receipt _ _ | .done _ => (r, [], none)
  else (r, [], none)

end Receiver

end EncedoChat.Xfer
