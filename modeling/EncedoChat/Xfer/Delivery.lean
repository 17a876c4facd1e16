import EncedoChat.Lib.Run
import EncedoChat.Xfer.Sending
import EncedoChat.Xfer.Receiving

/-!
# The bytes that arrive

Two sessions over a channel that is reliable and in order, each way. What the sender puts out under an id is the
chunks of its file from the first on, unless an acceptance finds the pump of an earlier transfer waiting.
-/

namespace EncedoChat.Xfer

variable {μ : Type}

inductive Side where
  | a
  | b
  deriving DecidableEq

def Side.other : Side → Side
  | .a => .b
  | .b => .a

structure Seat (μ : Type) where
  session : Session μ
  /-- the files offered here, each under its id -/
  offered : List (Nat × Bytes)
  /-- everything put on the channel, in order -/
  wire : List (Frame μ)
  /-- how much of what the other side put on the channel has come in -/
  read : Nat
  evs : List (XferEv μ)

structure Pair (μ : Type) where
  seat : Side → Seat μ

inductive Act (μ : Type) where
  | offer (file : Bytes) (card : μ) (id : Nat)
  | accept
  | reject
  | cancel
  | tick
  /-- the next frame of the channel comes in -/
  | deliver
  /-- what the pump waits for is there -/
  | resume
  /-- what the pump waits for fails -/
  | abandon
  | stop

/-- The id of an offer. -/
def Act.newId : Act μ → Option Nat
  | offer _ _ id => some id
  | _ => none

def Act.isDeliver : Act μ → Bool
  | deliver => true
  | _ => false

structure Move (μ : Type) where
  side : Side
  act : Act μ
  link : Link
  now : Time

namespace Pair

def start : Pair μ := ⟨fun _ => ⟨.start, [], [], 0, []⟩⟩

/-- The frame that comes in next. -/
def next (w : Pair μ) (s : Side) : Option (Frame μ) := (w.seat s.other).wire[(w.seat s).read]?

/-- What a session does with an action. -/
def turn (B : Bounds μ) (w : Pair μ) (m : Move μ) : Session μ × Out μ :=
  let x := (w.seat m.side).session
  match m.act with
  | .offer file card id => (x.offer B file card id m.link m.now).2
  | .accept => x.accept m.link m.now
  | .reject => x.reject m.link
  | .cancel => x.cancel m.link
  | .tick => x.tick m.link m.now
  | .deliver =>
    match w.next m.side with
    | some f => x.onFrame B m.link f m.now
    | none => (x, {})
  | .resume => x.resume m.link
  | .abandon => (x.abandon, {})
  | .stop => (x.stop, {})

/-- The file an offer is about, if it is made. -/
def newOffer (B : Bounds μ) (w : Pair μ) (m : Move μ) : List (Nat × Bytes) :=
  match m.act with
  | .offer file card id =>
    if ((w.seat m.side).session.offer B file card id m.link m.now).1 = .ok then [(id, file)] else []
  | _ => []

def act (B : Bounds μ) (w : Pair μ) (m : Move μ) : Pair μ :=
  let r := w.turn B m
  let old := w.seat m.side
  ⟨fun s =>
    if s = m.side then
      ⟨r.1, old.offered ++ w.newOffer B m, old.wire ++ r.2.frames,
        if m.act.isDeliver ∧ (w.next m.side).isSome then old.read + 1 else old.read, old.evs ++ r.2.evs⟩
    else w.seat s⟩

/-- The ids are random: no side has offered anything under this one. -/
def NewId (w : Pair μ) (m : Move μ) : Prop :=
  ∀ id ∈ m.act.newId, ∀ x ∈ (w.seat .a).offered ++ (w.seat .b).offered, x.1 ≠ id

instance (w : Pair μ) (m : Move μ) : Decidable (w.NewId m) :=
  inferInstanceAs (Decidable (∀ id ∈ m.act.newId, ∀ x ∈ (w.seat .a).offered ++ (w.seat .b).offered, x.1 ≠ id))

/-- No acceptance comes in while the pump of an earlier transfer holds anything but chunk 0 of the file accepted. -/
def Prompt (w : Pair μ) (m : Move μ) : Prop :=
  ∀ s ∈ (w.seat m.side).session.send, ∀ file ∈ (w.seat m.side).session.file, m.act.isDeliver = true →
    s.state = .offering → w.next m.side = some (.accept s.offer.id) → FitsStart file (w.seat m.side).session.pump

instance [DecidableEq μ] (w : Pair μ) (m : Move μ) : Decidable (w.Prompt m) :=
  inferInstanceAs (Decidable (∀ s ∈ (w.seat m.side).session.send, ∀ file ∈ (w.seat m.side).session.file,
    m.act.isDeliver = true → s.state = .offering → w.next m.side = some (.accept s.offer.id) →
      FitsStart file (w.seat m.side).session.pump))

/-- What a side sends under an id is the beginning of the file offered under it, and what it reports as received is
all of the file offered under it on the other side. -/
structure Delivers (w : Pair μ) : Prop where
  sent : ∀ s, ∀ a ∈ (w.seat s).offered,
    ∃ n ≤ chunksOf a.2.length, chunksUnder a.1 (w.seat s).wire = firstChunks a.2 n
  offered : ∀ s id i body, .chunk id i body ∈ (w.seat s).wire → ∃ file, (id, file) ∈ (w.seat s).offered
  received : ∀ s id card blob, .received id card blob ∈ (w.seat s).evs →
    ∀ file, (id, file) ∈ (w.seat s.other).offered ↔ file = blob

structure Inv (w : Pair μ) : Prop where
  sends : ∀ s, Sends (w.seat s).offered (w.seat s).session (w.seat s).wire
  receives : ∀ s, Receives (w.seat s.other).offered (w.seat s).session (w.seat s).evs

theorem Inv.start : Inv (Pair.start : Pair μ) := ⟨fun _ => .start, fun _ => .start⟩

theorem Inv.deliveries {w : Pair μ} (I : Inv w) : Delivers w := by
  refine ⟨fun s => (I.sends s).all, fun s => (I.sends s).only, ?_⟩
  intro s id card blob hmem file
  have hblob := (I.receives s).handed id card blob hmem
  constructor
  · intro hfile
    exact (Prod.mk.inj ((I.sends s.other).ids _ hfile _ hblob rfl)).2
  · rintro rfl
    exact hblob

/-! ## The step -/

theorem next_mem {w : Pair μ} {s : Side} {f : Frame μ} (h : w.next s = some f) : f ∈ (w.seat s.other).wire :=
  List.mem_of_getElem? h

variable {B : Bounds μ} {w : Pair μ} {m : Move μ}

/-- A frame comes in on the sending side. -/
theorem Inv.deliver_sends (I : Inv w) (hprompt : w.Prompt m) (hm : m.act.isDeliver = true) {f : Frame μ}
    (hf : w.next m.side = some f) :
    Sends (w.seat m.side).offered ((w.seat m.side).session.onFrame B m.link f m.now).1
      ((w.seat m.side).wire ++ ((w.seat m.side).session.onFrame B m.link f m.now).2.frames) := by
  by_cases hacc : ∃ s, (w.seat m.side).session.send = some s ∧ (s.onFrame f m.now).2.any Ev.isAccepted = true
  · obtain ⟨s, hs, hany⟩ := hacc
    obtain ⟨-, -, -, -, haccept, -⟩ := Keeps.sender_onFrame s f m.now
    obtain ⟨hoff, rfl, -, -⟩ := haccept hany
    have hto : (w.seat m.side).session.onFrame B m.link (.accept s.offer.id) m.now =
        (w.seat m.side).session.toSender m.link s (.accept s.offer.id) m.now := by
      rw [Keeps.onFrame_eq B _ m.link m.now (fun o => by simp), hs]
    rw [hto]
    exact (I.sends m.side).accepted m.link hs hany fun file hfile => hprompt s hs file hfile hm hoff hf
  · apply (I.sends m.side).keep
    apply Keeps.onFrame
    intro s hs
    exact Bool.eq_false_iff.mpr fun hany => hacc ⟨s, hs, hany⟩

/-- A frame comes in on the receiving side. -/
theorem Inv.deliver_receives (I : Inv w) {s : Side} (link : Link) (now : Time) {f : Frame μ}
    (hf : w.next s = some f) :
    Receives (w.seat s.other).offered ((w.seat s).session.onFrame B link f now).1
      ((w.seat s).evs ++ ((w.seat s).session.onFrame B link f now).2.evs) := by
  by_cases hoffer : ∃ o, f = .offer o
  · obtain ⟨o, rfl⟩ := hoffer
    obtain ⟨file, hfile, hsize⟩ := (I.sends s.other).offers o (next_mem hf)
    exact (I.receives s).onOffer B link hfile hsize
  rw [Keeps.onFrame_eq B _ link now fun o he => hoffer ⟨o, he⟩]
  cases (w.seat s).session.send with
  | some t => exact (I.receives s).wait (.toSender _ link t f now)
  | none =>
      cases hv : (w.seat s).session.recv with
      | none => exact (I.receives s).wait (.refl _)
      | some v =>
          apply (I.receives s).toReceiver link hv f now
          rintro id i body rfl file hfile
          exact (I.sends s.other).chunk_eq (next_mem hf) hfile

theorem Inv.turn_sends (I : Inv w) (hnew : w.NewId m) (hprompt : w.Prompt m) :
    Sends ((w.seat m.side).offered ++ w.newOffer B m) (w.turn B m).1
      ((w.seat m.side).wire ++ (w.turn B m).2.frames) := by
  obtain ⟨side, act, link, now⟩ := m
  have S := I.sends side
  rw [turn, newOffer]
  cases act with
  | offer file card id =>
      apply S.offer B file card link now
      intro a ha
      apply hnew id rfl a
      cases side
      · exact List.mem_append_left _ ha
      · exact List.mem_append_right _ ha
  | accept => exact (List.append_nil _).symm ▸ S.keep (.accept _ link now)
  | reject => exact (List.append_nil _).symm ▸ S.keep (.reject _ link)
  | cancel => exact (List.append_nil _).symm ▸ S.keep (.cancel _ link)
  | tick => exact (List.append_nil _).symm ▸ S.keep (.tick _ link now)
  | deliver =>
      rw [List.append_nil]
      cases hf : w.next side with
      | none => exact S.keep (.refl _)
      | some f => exact I.deliver_sends hprompt rfl hf
  | resume => exact (List.append_nil _).symm ▸ S.resume link
  | abandon => exact (List.append_nil _).symm ▸ S.keep (.setPump _)
  | stop => exact (List.append_nil _).symm ▸ S.keep (.clear _ fun _ h => nomatch h)

theorem Inv.turn_receives (I : Inv w) :
    Receives (w.seat m.side.other).offered (w.turn B m).1 ((w.seat m.side).evs ++ (w.turn B m).2.evs) := by
  obtain ⟨side, act, link, now⟩ := m
  have R := I.receives side
  rw [turn]
  cases act with
  | offer file card id => exact R.wait (.offer B _ file card id link now)
  | accept => exact R.wait (.accept _ link now)
  | reject => exact R.wait (.reject _ link)
  | cancel => exact R.wait (.cancel _ link)
  | tick => exact R.wait (.tick _ link now)
  | deliver =>
      dsimp only
      cases hf : w.next side with
      | none => exact R.wait (.refl _)
      | some f => exact I.deliver_receives link now hf
  | resume => exact R.wait (.resume _ link)
  | abandon => exact R.wait (.of_recv rfl fun _ _ _ h => nomatch h)
  | stop => exact R.wait (.of_none rfl fun _ _ _ h => nomatch h)

theorem other_ne (s : Side) : s.other ≠ s := by cases s <;> decide

theorem eq_other {s t : Side} (h : s ≠ t) : s.other = t := by cases s <;> cases t <;> first | rfl | exact absurd rfl h

theorem Inv.act (I : Inv w) (hnew : w.NewId m) (hprompt : w.Prompt m) : Inv (w.act B m) := by
  have hmove : (w.act B m).seat m.side = _ := if_pos rfl
  have hstay : ∀ s, s ≠ m.side → (w.act B m).seat s = w.seat s := fun s hs => if_neg hs
  refine ⟨?_, ?_⟩
  · intro s
    by_cases hs : s = m.side
    · subst hs
      rw [hmove]
      exact I.turn_sends hnew hprompt
    · rw [hstay s hs]
      exact I.sends s
  · intro s
    by_cases hs : s = m.side
    · subst hs
      rw [hmove, hstay _ (other_ne m.side)]
      exact I.turn_receives
    · rw [hstay s hs, eq_other hs, hmove]
      have hold : Receives ((w.seat s.other).offered ++ w.newOffer B m) (w.seat s).session (w.seat s).evs :=
        (I.receives s).mono
      rw [eq_other hs] at hold
      exact hold

/-! ## The runs -/

/-- Whatever the order of offers, answers, frames and steps of the pump, as long as no acceptance finds the pump of an
earlier transfer with something else in hand. -/
theorem delivers (h : Reach (Pair.act B) (fun w m => w.NewId m ∧ w.Prompt m) .start w) : Delivers w :=
  (h.invariant Inv.start fun _ _ I hok => I.act hok.1 hok.2).deliveries

def anyBounds : Bounds Unit := ⟨fun _ => true, fun _ => true⟩

/-- Two files of one byte, both taken: the second after the first is through. -/
def twoFiles : List (Move Unit) :=
  let one : List (Move Unit) → Nat → Bytes → List (Move Unit) := fun rest id file =>
    [⟨.a, .offer file () id, .up, 0⟩, ⟨.b, .deliver, .up, 0⟩, ⟨.b, .accept, .up, 0⟩, ⟨.a, .deliver, .up, 0⟩] ++ rest
  one [⟨.a, .resume, .up, 0⟩, ⟨.a, .resume, .up, 0⟩, ⟨.b, .deliver, .up, 0⟩, ⟨.a, .deliver, .up, 0⟩] 1 [1] ++
    one [⟨.a, .resume, .up, 0⟩, ⟨.a, .resume, .up, 0⟩, ⟨.b, .deliver, .up, 0⟩, ⟨.a, .deliver, .up, 0⟩] 2 [2]

theorem twoFiles_delivers : Delivers (twoFiles.foldl (Pair.act anyBounds) .start) :=
  delivers (Admits.reach .start (by decide))

/-- The first transfer is called off while its pump reads the file, and the second is taken before the read is over. -/
def overtaken : List (Move Unit) :=
  [⟨.a, .offer [1] () 1, .up, 0⟩, ⟨.b, .deliver, .up, 0⟩, ⟨.b, .accept, .up, 0⟩, ⟨.a, .deliver, .up, 0⟩,
    ⟨.a, .resume, .up, 0⟩, ⟨.a, .cancel, .up, 0⟩, ⟨.b, .deliver, .up, 0⟩,
    ⟨.a, .offer [2] () 2, .up, 0⟩, ⟨.b, .deliver, .up, 0⟩, ⟨.b, .accept, .up, 0⟩, ⟨.a, .deliver, .up, 0⟩,
    ⟨.a, .resume, .up, 0⟩, ⟨.b, .deliver, .up, 0⟩]

/-- The second file is reported as received with the bytes of the first. -/
theorem overtaken_mixed :
    ¬ ∀ w, Reach (Pair.act anyBounds) (fun w m => w.NewId m) .start w → Delivers w := by
  intro h
  have hreach : Reach (Pair.act anyBounds) (fun w m => w.NewId m) .start (overtaken.foldl (Pair.act anyBounds) .start) :=
    Admits.reach .start (by decide)
  have hgot : XferEv.received 2 () [1] ∈ ((overtaken.foldl (Pair.act anyBounds) .start).seat .b).evs := by decide
  have hoffered : (2, [2]) ∈ ((overtaken.foldl (Pair.act anyBounds) .start).seat .a).offered := by decide
  have hsame := ((h _ hreach).received .b 2 () [1] hgot [2]).mp hoffered
  cases hsame

end Pair

end EncedoChat.Xfer
