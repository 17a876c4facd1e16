import EncedoChat.Xfer.Codec
import EncedoChat.Xfer.Receiving
import Mathlib.Data.List.Induction

/-!
# The pieces of a receiver

`createReceiver` of `lib/xfer.ts` over the frames as bytes. A frame is kept only when it is the chunk that is wanted, at its
length, so what is kept are the chunks of a file from the first one on.
-/

namespace EncedoChat.Xfer

variable {μ : Type}

namespace Receiver

/-- `onFrame`, of the bytes of a frame. -/
def onBytes (r : Receiver μ) (b : Bytes) (now : Time) : Receiver μ × List (Ev μ) × Option (Frame μ) :=
  if isXfer b = false ∨ Bytes.getU32 b 2 ≠ r.offer.id then (r, [], none)
  else
    let r := { r with last := now }
    if b.getD 1 0 = T.CANCEL then
      if r.state = .done then (r, [], none)
      else
        let x := r.fail .cancelledPeer
        (x.1, x.2, none)
    else if b.getD 1 0 ≠ T.CHUNK then (r, [], none)
    else if r.state ≠ .receiving then (r, [], none)
    else if b.length < CHUNK_HEADER then
      let x := r.fail .badFrame
      (x.1, x.2, none)
    else if Bytes.getU32 b 6 ≠ r.want then
      let x := r.fail .outOfOrder
      (x.1, x.2, none)
    else if (b.drop 10).length ≠ min CHUNK (r.offer.size - r.got) then
      let x := r.fail .badFrame
      (x.1, x.2, none)
    else r.take (b.drop 10)

end Receiver

/-- A frame as the bytes that travel. -/
def Frame.bytes (F : JsonText.Doubles) : Frame Card → Bytes
  | .offer o => encodeOffer F o
  | .accept id => frame T.ACCEPT id []
  | .reject id => frame T.REJECT id []
  | .chunk id index body => encodeChunk id index body
  | .receipt id index => frame T.RECEIPT id (Bytes.u32be index)
  | .cancel id => frame T.CANCEL id []
  | .done id => frame T.DONE id []

theorem onBytes_frame (r : Receiver Card) {sub : UInt8} (hlo : T.OFFER ≤ sub) (hhi : sub ≤ T.DONE) {id : Nat}
    (hid : id < 2 ^ 32) (rest : Bytes) (now : Time) (hno : sub ≠ T.CANCEL) (hnot : sub ≠ T.CHUNK) : r.onBytes (frame sub id rest) now =
      if id = r.offer.id then ({ r with last := now }, [], none) else (r, [], none) := by
  have hsub : (frame sub id rest).getD 1 0 = sub := rfl
  rw [Receiver.onBytes, isXfer_frame hlo hhi, getU32_frame sub hid, hsub]
  by_cases h : id = r.offer.id
  · simp [h, hno, hnot]
  · simp [h]

/-- On the bytes of a frame a receiver does what it does on the frame. -/
theorem onBytes_bytes (F : JsonText.Doubles) (r : Receiver Card) {f : Frame Card} (hid : f.id < 2 ^ 32)
    (hindex : ∀ id i body, f = .chunk id i body → i < 2 ^ 32) (now : Time) :
    r.onBytes (f.bytes F) now = r.onFrame f now := by
  cases f with
  | offer o => exact onBytes_frame r (by decide) (by decide) hid _ now (by decide) (by decide)
  | accept id => exact onBytes_frame r (by decide) (by decide) hid _ now (by decide) (by decide)
  | reject id => exact onBytes_frame r (by decide) (by decide) hid _ now (by decide) (by decide)
  | receipt id i => exact onBytes_frame r (by decide) (by decide) hid _ now (by decide) (by decide)
  | done id => exact onBytes_frame r (by decide) (by decide) hid _ now (by decide) (by decide)
  | cancel id =>
      have hid : id < 2 ^ 32 := hid
      have hsub : (frame T.CANCEL id []).getD 1 0 = T.CANCEL := rfl
      rw [Frame.bytes, Receiver.onBytes, isXfer_frame (by decide) (by decide), getU32_frame _ hid, hsub, Receiver.onFrame]
      by_cases h : id = r.offer.id <;> simp [h, Frame.id]
  | chunk id i body =>
      have hid : id < 2 ^ 32 := hid
      have hframe : encodeChunk id i body = frame T.CHUNK id (Bytes.u32be i ++ body) := rfl
      have hwant : Bytes.getU32 (encodeChunk id i body) 6 = i := by
        rw [encodeChunk, ← List.append_assoc]
        exact (Bytes.getU32_mid ([CTRL, T.CHUNK] ++ Bytes.u32be id) body i (by simp)).trans
          (Nat.mod_eq_of_lt (hindex id i body rfl))
      have hbody : (encodeChunk id i body).drop 10 = body := by
        rw [encodeChunk, ← List.append_assoc, ← List.append_assoc]
        exact List.drop_left' (by simp)
      have hlen : ¬(encodeChunk id i body).length < CHUNK_HEADER := by
        rw [encodeChunk, CHUNK_HEADER]
        simp
        omega
      have hsub : (encodeChunk id i body).getD 1 0 = T.CHUNK := rfl
      rw [Frame.bytes, Receiver.onBytes, hwant, hbody, hsub, hframe, isXfer_frame (by decide) (by decide), getU32_frame _ hid,
        ← hframe, Receiver.onFrame]
      have hkind : ¬T.CHUNK = T.CANCEL := by decide
      by_cases h : id = r.offer.id
      · rw [h] at hlen
        simp only [h, Frame.id, Bool.true_eq_false, ne_eq, not_true_eq_false, or_self, if_false, if_true, hkind, hlen, ite_not]
      · simp [h, Frame.id]

/-- What comes to a receiver. Only an offered one is accepted. -/
inductive Input where
  | accept (now : Time)
  | frame (b : Bytes) (now : Time)
  | tick (now : Time)

def Receiver.act (r : Receiver μ) : Input → Receiver μ × List (Ev μ)
  | .accept now => if r.state = .offered then ((r.accept now).1, []) else (r, [])
  | .frame b now => ((r.onBytes b now).1, (r.onBytes b now).2.1)
  | .tick now => r.tick now

def Receiver.run (r : Receiver μ) (inputs : List Input) : Receiver μ × List (Ev μ) :=
  inputs.foldl (fun x i => ((x.1.act i).1, x.2 ++ (x.1.act i).2)) (r, [])

def Input.bytes : Input → Option Bytes
  | .frame b _ => some b
  | _ => none

/-- `r.parts.length`-th and so on: the frames whose bodies the pieces are. -/
def chunkFrames (id : Nat) (parts : List Bytes) : List Bytes := parts.mapIdx fun i body => encodeChunk id i body

/-- The pieces are the chunks of a file of the offered size, from the first one on; each came in a frame. -/
structure Pieces (r : Receiver μ) (frames : List Bytes) (evs : List (Ev μ)) : Prop where
  want : r.want = r.parts.length
  whole : ∀ i, ∀ h : i < r.parts.length, (r.parts.get ⟨i, h⟩).length = min CHUNK (r.offer.size - i * CHUNK)
  got : r.got = r.parts.flatten.length
  sum : r.got = min (r.want * CHUNK) r.offer.size
  le : r.want ≤ r.offer.chunks
  done : r.state = .done ↔ r.want = r.offer.chunks
  sent : List.Sublist (chunkFrames r.offer.id r.parts) frames
  reported : (evs.filter Ev.isDone).length = if r.state = .done then 1 else 0

section
variable {r : Receiver μ} {frames : List Bytes} {evs : List (Ev μ)}

theorem mul_le_of_lt_chunksOf {n size : Nat} (h : n < chunksOf size) : n * CHUNK ≤ size := by
  rw [chunksOf, CHUNK] at h
  rw [CHUNK]
  omega

theorem eq_encodeChunk {b : Bytes} {id i : Nat} (hlen : CHUNK_HEADER ≤ b.length) (hctrl : b.getD 0 0 = CTRL)
    (hsub : b.getD 1 0 = T.CHUNK) (hid : Bytes.getU32 b 2 = id) (hi : Bytes.getU32 b 6 = i) :
    b = encodeChunk id i (b.drop 10) := by
  rw [CHUNK_HEADER] at hlen
  have hu32 : ∀ o, o + 4 ≤ b.length → Bytes.u32be (Bytes.getU32 b o) = Bytes.slice b o (o + 4) := by
    intro o ho
    exact Bytes.ofNat_toNat ((Bytes.length_slice b (by omega) ho).trans (by omega))
  have hhead : [CTRL, T.CHUNK] = Bytes.slice b 0 2 := by
    match b, hlen with
    | p :: q :: _, _ =>
      cases hctrl
      cases hsub
      rfl
  have hrest : b.drop 10 = Bytes.slice b 10 b.length := by
    rw [Bytes.slice, List.take_of_length_le (by rw [List.length_drop])]
  rw [encodeChunk, ← hid, ← hi, hhead, hu32 2 (by omega), hu32 6 (by omega), hrest,
    Bytes.slice_append_slice b (by omega) (by omega),
    Bytes.slice_append_slice b (by omega) (by omega), Bytes.slice_append_slice b (by omega) (by omega), Bytes.slice_all]

theorem chunkFrames_append (id : Nat) (parts : List Bytes) (body : Bytes) :
    chunkFrames id (parts ++ [body]) = chunkFrames id parts ++ [encodeChunk id parts.length body] := by
  rw [chunkFrames, List.mapIdx_concat]
  rfl

theorem Pieces.create {o : Offer μ} (hchunks : o.chunks = chunksOf o.size) : Pieces (createReceiver o) [] [] where
  want := rfl
  whole i h := absurd h (Nat.not_lt_zero i)
  got := rfl
  sum := by simp [createReceiver]
  le := Nat.zero_le _
  done := by
    have hpos : 0 < o.chunks := by
      rw [hchunks, chunksOf]
      omega
    simp only [createReceiver, reduceCtorEq, false_iff]
    omega
  sent := List.Sublist.slnil
  reported := rfl

/-- Another state, but for done, and a later frame: the pieces are as they were. -/
theorem Pieces.keep (h : Pieces r frames evs) (state : ReceiverState) (last : Time)
    (hstate : state = .done ↔ r.state = .done) (more : List Bytes) (out : List (Ev μ)) (hout : out.filter Ev.isDone = []) :
    Pieces { r with state := state, last := last } (frames ++ more) (evs ++ out) where
  want := h.want
  whole := h.whole
  got := h.got
  sum := h.sum
  le := h.le
  done := hstate.trans h.done
  sent := h.sent.trans (List.sublist_append_left frames more)
  reported := by
    rw [List.filter_append, hout, List.append_nil, h.reported]
    simp only [hstate]

theorem Pieces.take (h : Pieces r frames evs) (hchunks : r.offer.chunks = chunksOf r.offer.size) (hopen : r.state ≠ .done)
    {body b : Bytes} (hlen : body.length = min CHUNK (r.offer.size - r.got)) (hb : b = encodeChunk r.offer.id r.want body) :
    Pieces (r.take body).1 (frames ++ [b]) (evs ++ (r.take body).2.1) := by
  have hlt : r.want < r.offer.chunks := Nat.lt_of_le_of_ne h.le fun heq => hopen (h.done.mpr heq)
  have hgot : r.got = r.want * CHUNK := h.sum.trans (Nat.min_eq_left (mul_le_of_lt_chunksOf (hchunks ▸ hlt)))
  have hnone : (evs.filter Ev.isDone).length = 0 := by
    rw [h.reported, if_neg hopen]
  have hall : ∀ (state : ReceiverState) (out : List (Ev μ)), (state = .done ↔ r.want + 1 = r.offer.chunks) →
      (out.filter Ev.isDone).length = (if state = .done then 1 else 0) →
      Pieces { r with state := state, parts := r.parts ++ [body], got := r.got + body.length, want := r.want + 1 }
        (frames ++ [b]) (evs ++ out) := by
    intro state out hstate hout
    refine ⟨?_, ?_, ?_, ?_, hlt, hstate, ?_, ?_⟩
    · rw [List.length_append, ← h.want]
      rfl
    · intro i hi
      rw [List.length_append, List.length_singleton] at hi
      rcases Nat.lt_or_ge i r.parts.length with hold | hnew
      · have := h.whole i hold
        simpa [List.getElem_append_left hold] using this
      · obtain rfl : i = r.parts.length := by omega
        simp [hlen, hgot, h.want]
    · rw [List.flatten_append, List.flatten_singleton, List.length_append, ← h.got]
    · have hle := mul_le_of_lt_chunksOf (hchunks ▸ hlt)
      dsimp only
      rw [hlen, hgot, Nat.add_mul, Nat.one_mul]
      omega
    · rw [chunkFrames_append, ← h.want, hb]
      exact h.sent.append (List.Sublist.refl _)
    · rw [List.filter_append, List.length_append, hnone, hout, Nat.zero_add]
  rw [Receiver.take]
  dsimp only
  split
  · rename_i hlast
    exact hall .done _ (iff_of_true rfl (Nat.le_antisymm hlt hlast)) rfl
  · rename_i hmore
    have hstate : r.state = .done ↔ r.want + 1 = r.offer.chunks :=
      iff_of_false hopen fun heq => hmore (Nat.le_of_eq heq.symm)
    have hprogress : ∀ a b, ([Ev.progress a b] : List (Ev μ)).filter Ev.isDone = [] := fun _ _ => rfl
    split
    · exact hall r.state _ hstate (by rw [hprogress, if_neg hopen]; rfl)
    · exact hall r.state _ hstate (by rw [hprogress, if_neg hopen]; rfl)

theorem Pieces.onBytes (h : Pieces r frames evs) (hchunks : r.offer.chunks = chunksOf r.offer.size) (b : Bytes)
    (now : Time) :
    Pieces (r.onBytes b now).1 (frames ++ [b]) (evs ++ (r.onBytes b now).2.1) := by
  have hlast : Pieces { r with last := now } (frames ++ [b]) (evs ++ []) := h.keep r.state now Iff.rfl [b] [] rfl
  have hfail : ∀ why, r.state ≠ .done →
      Pieces { r with state := .failed, last := now } (frames ++ [b]) (evs ++ [Ev.failed why]) :=
    fun why hopen => h.keep .failed now (iff_of_false (by decide) hopen) [b] [.failed why] rfl
  rw [Receiver.onBytes]
  split
  · exact h.keep r.state r.last Iff.rfl [b] [] rfl
  rename_i hours
  obtain ⟨hx, hid⟩ := not_or.mp hours
  dsimp only
  split
  · split
    · exact hlast
    · rename_i hopen
      exact hfail .cancelledPeer hopen
  split
  · exact hlast
  rename_i hchunk
  split
  · exact hlast
  rename_i hreceiving
  have hopen : r.state ≠ .done := by
    rw [not_not.mp hreceiving]
    decide
  split
  · exact hfail .badFrame hopen
  rename_i hheader
  split
  · exact hfail .outOfOrder hopen
  rename_i hwant
  split
  · exact hfail .badFrame hopen
  · rename_i hlen
    have hctrl : b.getD 0 0 = CTRL := by
      have hyes := Bool.eq_true_of_not_eq_false hx
      simp only [isXfer, Bool.and_eq_true, decide_eq_true_eq] at hyes
      exact hyes.1.1.2
    have hb : b = encodeChunk r.offer.id r.want (b.drop 10) :=
      eq_encodeChunk (Nat.le_of_not_lt hheader) hctrl (not_not.mp hchunk) (not_not.mp hid) (not_not.mp hwant)
    have hkeep : Pieces { r with last := now } frames evs := by
      simpa using h.keep r.state now Iff.rfl [] [] rfl
    exact hkeep.take hchunks hopen (not_not.mp hlen) hb

/-- What any input leaves of the pieces. -/
theorem Pieces.act (h : Pieces r frames evs) (hchunks : r.offer.chunks = chunksOf r.offer.size) (i : Input) :
    Pieces (r.act i).1 (frames ++ i.bytes.toList) (evs ++ (r.act i).2) := by
  cases i with
  | accept now =>
      rw [Receiver.act]
      split
      · rename_i hoffered
        exact h.keep .receiving now (iff_of_false (by decide) (by rw [hoffered]; decide)) [] [] rfl
      · exact h.keep r.state r.last Iff.rfl [] [] rfl
  | frame b now => exact h.onBytes hchunks b now
  | tick now =>
      rw [Receiver.act, Receiver.tick]
      split
      · rename_i hlate
        exact h.keep .failed r.last (iff_of_false (by decide) (by rw [hlate.1]; decide)) [] [.failed .channel] rfl
      · exact h.keep r.state r.last Iff.rfl [] [] rfl

end

/-! ## Runs -/

section
variable {r : Receiver μ}

theorem offer_take (r : Receiver μ) (body : Bytes) : (r.take body).1.offer = r.offer := by
  rw [Receiver.take]
  dsimp only
  split
  · rfl
  split <;> rfl

theorem offer_act (r : Receiver μ) (i : Input) : (r.act i).1.offer = r.offer := by
  cases i with
  | accept now =>
      rw [Receiver.act]
      split <;> rfl
  | frame b now =>
      rw [Receiver.act, Receiver.onBytes]
      split
      · rfl
      dsimp only
      split
      · split <;> rfl
      split
      · rfl
      split
      · rfl
      split
      · rfl
      split
      · rfl
      split
      · rfl
      · exact offer_take _ _
  | tick now =>
      rw [Receiver.act, Receiver.tick]
      split <;> rfl

theorem run_append (r : Receiver μ) (inputs : List Input) (i : Input) : r.run (inputs ++ [i]) =
    (((r.run inputs).1.act i).1, (r.run inputs).2 ++ ((r.run inputs).1.act i).2) := by
  rw [Receiver.run, List.foldl_append]
  rfl

theorem offer_run (r : Receiver μ) (inputs : List Input) : (r.run inputs).1.offer = r.offer := by
  induction inputs using List.reverseRecOn with
  | nil => rfl
  | append_singleton inputs i ih => rw [run_append, offer_act, ih]

theorem pieces_run {o : Offer μ} (hchunks : o.chunks = chunksOf o.size) (inputs : List Input) :
    Pieces ((createReceiver o).run inputs).1 (inputs.filterMap Input.bytes) ((createReceiver o).run inputs).2 := by
  induction inputs using List.reverseRecOn with
  | nil => exact .create hchunks
  | append_singleton inputs i ih =>
      have hoffer := offer_run (createReceiver o) inputs
      have hstep := ih.act (by rw [hoffer]; exact hchunks) i
      have hbytes : [i].filterMap Input.bytes = i.bytes.toList := by
        cases i <;> rfl
      rw [run_append, List.filterMap_append, hbytes]
      exact hstep

/-- A receiver that is at its end keeps its state and its pieces. -/
theorem act_over (hover : r.state = .done ∨ r.state = .failed) (i : Input) :
    (r.act i).1.state = r.state ∧ (r.act i).1.parts = r.parts := by
  have hno : ∀ state, state ≠ .done → state ≠ .failed → r.state ≠ state := by
    rintro state hdone hfailed rfl
    rcases hover with h | h
    · exact hdone h
    · exact hfailed h
  cases i with
  | accept now =>
      rw [Receiver.act, if_neg (hno .offered (by decide) (by decide))]
      exact ⟨rfl, rfl⟩
  | frame b now =>
      rw [Receiver.act, Receiver.onBytes]
      split
      · exact ⟨rfl, rfl⟩
      dsimp only
      split
      · split
        · exact ⟨rfl, rfl⟩
        · rename_i hopen
          exact ⟨(hover.resolve_left hopen).symm, rfl⟩
      split
      · exact ⟨rfl, rfl⟩
      · rw [if_pos (hno .receiving (by decide) (by decide))]
        exact ⟨rfl, rfl⟩
  | tick now =>
      rw [Receiver.act, Receiver.tick, if_neg fun h => hno .receiving (by decide) (by decide) h.1]
      exact ⟨rfl, rfl⟩

theorem run_over (hover : r.state = .done ∨ r.state = .failed) (inputs : List Input) :
    (r.run inputs).1.state = r.state ∧ (r.run inputs).1.parts = r.parts := by
  induction inputs using List.reverseRecOn with
  | nil => exact ⟨rfl, rfl⟩
  | append_singleton inputs i ih =>
      obtain ⟨hstate, hparts⟩ := ih
      obtain ⟨hstate', hparts'⟩ := act_over (by rw [hstate]; exact hover) i
      rw [run_append]
      exact ⟨hstate'.trans hstate, hparts'.trans hparts⟩

/-- Of an offer with something in it a receiver is done when all of it is there. -/
theorem Pieces.done_iff {frames : List Bytes} {evs : List (Ev μ)} (h : Pieces r frames evs)
    (hchunks : r.offer.chunks = chunksOf r.offer.size) (hsize : 0 < r.offer.size) :
    r.state = .done ↔ r.parts.flatten.length = r.offer.size := by
  rw [h.done, ← h.got, h.sum]
  have hle := h.le
  have hall := le_chunksOf r.offer.size
  constructor
  · intro hwant
    rw [hwant, hchunks, Nat.min_eq_right hall]
  · intro hsum
    by_contra hne
    have hlt : r.want < chunksOf r.offer.size := hchunks ▸ Nat.lt_of_le_of_ne hle hne
    rw [chunksOf, CHUNK] at hlt
    rw [CHUNK] at hsum
    omega

end

/-- What a session offers is read as it was sent; and a receiver keeps whole chunks, one after the other, is done when they
are the file, says so once, and is then over. -/
theorem direct_transfer (F : JsonText.Doubles) (ofText : Units → Option JsonText.Number) :
    (∀ (x x' : Session Card) (file : Bytes) (name type : Units) (body : Option Units) (id : Nat) (link : Link) (now : Time)
      (r : OfferResult) (out : Out Card), id < 2 ^ 32 →
      Session.offer (bounds F) x file (cardOf name type body) id link now = (r, x', out) →
      ∀ f ∈ out.frames, ∃ o, f = .offer o ∧ decodeOfferBytes F ofText (encodeOffer F o) = some o ∧
        (encodeOffer F o).length - 6 ≤ MAX_OFFER_BODY ∧ (encodeOffer F o).length ≤ DC_MAX_MESSAGE) ∧
    (∀ (o : Offer Card), o.chunks = chunksOf o.size → 0 < o.size → ∀ inputs : List Input, ∀ r evs,
      (createReceiver o).run inputs = (r, evs) →
      (∀ i, ∀ h : i < r.parts.length, (r.parts.get ⟨i, h⟩).length = min CHUNK (o.size - i * CHUNK)) ∧
      List.Sublist (chunkFrames o.id r.parts) (inputs.filterMap Input.bytes) ∧
      (r.state = .done ↔ r.parts.flatten.length = o.size) ∧
      (evs.filter Ev.isDone).length = (if r.parts.flatten.length = o.size then 1 else 0) ∧
      (r.state = .done ∨ r.state = .failed → ∀ later : List Input,
        (r.run later).1.state = r.state ∧ (r.run later).1.parts = r.parts)) := by
  refine ⟨fun x x' file name type body id link now r out hid h f hf => offer_read ofText hid h hf, ?_⟩
  intro o hchunks hsize inputs r evs hrun
  have h := pieces_run hchunks inputs
  have hoffer := offer_run (createReceiver o) inputs
  rw [hrun] at h hoffer
  have hoffer : r.offer = o := hoffer
  have hdone : r.state = .done ↔ r.parts.flatten.length = o.size := by
    have := h.done_iff (by rw [hoffer]; exact hchunks) (by rw [hoffer]; exact hsize)
    rwa [hoffer] at this
  refine ⟨?_, ?_, hdone, ?_, fun hover later => run_over hover later⟩
  · have := h.whole
    rwa [hoffer] at this
  · have := h.sent
    rwa [hoffer] at this
  · rw [h.reported]
    simp only [hdone]

/-- A file of one byte, without a name. -/
def oneByte : Offer Card := (createSender 1 (cardOf [] [] none) 5).offer

/-- It is taken, and a frame that comes late changes nothing. -/
def oneByteTaken : List Input := [.accept 0, .frame (encodeChunk 5 0 [7]) 1]

theorem direct_transfer_oneByte :
    decodeOfferBytes JsonText.Doubles.whole (fun _ => none) (encodeOffer JsonText.Doubles.whole oneByte) = some oneByte ∧
      ((createReceiver oneByte).run oneByteTaken).1.state = .done ∧
      (((createReceiver oneByte).run oneByteTaken).1.run [.frame (encodeChunk 5 0 [8]) 2]).1.parts = [[7]] := by
  obtain ⟨hoffer, hreceive⟩ := direct_transfer JsonText.Doubles.whole fun _ => none
  obtain ⟨-, -, hdone, -, hover⟩ := hreceive oneByte (by decide) (by decide) oneByteTaken _ _ rfl
  have hend := hdone.mpr (by decide)
  refine ⟨?_, hend, (hover (.inl hend) _).2.trans (by decide)⟩
  have hsent : Frame.offer oneByte ∈
      (Session.offer (bounds JsonText.Doubles.whole) .start [7] (cardOf [] [] none) 5 .up 0).2.2.frames := by
    decide +kernel
  obtain ⟨o, heq, hread, -, -⟩ := hoffer .start _ [7] [] [] none 5 .up 0 _ _ (by decide) rfl _ hsent
  cases heq
  exact hread

end EncedoChat.Xfer
