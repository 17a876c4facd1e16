import EncedoChat.Xfer.Session
import EncedoChat.Lib.JsonAccess
import EncedoChat.Lib.JsonBytes

/-!
# The frames of a transfer as bytes

`frame`, `encodeOffer`, `decodeOffer` and `encodeChunk` of `lib/xfer.ts`, and the clamps and bounds of an offer. What is
said of a file beside its size is its name, its type and a note.
-/

namespace EncedoChat.Xfer

open Units JsonText

def CTRL : UInt8 := 0x00

namespace T

def OFFER : UInt8 := 0x01
def ACCEPT : UInt8 := 0x02
def REJECT : UInt8 := 0x03
def CHUNK : UInt8 := 0x04
def RECEIPT : UInt8 := 0x05
def CANCEL : UInt8 := 0x06
def DONE : UInt8 := 0x07

end T

def DC_MAX_MESSAGE : Nat := 65536

def CHUNK_HEADER : Nat := 10

def MAX_OFFER_BODY : Nat := 4096

structure Card where
  name : Units
  mime : Units
  body : Option Units
  deriving DecidableEq

def frame (sub : UInt8) (id : Nat) (rest : Bytes) : Bytes := [CTRL, sub] ++ (Bytes.u32be id ++ rest)

def isXfer (b : Bytes) : Bool := 6 ≤ b.length && b.getD 0 0 = CTRL && T.OFFER ≤ b.getD 1 0 && b.getD 1 0 ≤ T.DONE

def encodeChunk (id index : Nat) (body : Bytes) : Bytes :=
  [CTRL, T.CHUNK] ++ (Bytes.u32be id ++ (Bytes.u32be index ++ body))

/-! ## An offer -/

/-- What is in the JSON of an offer; an empty note is left out. -/
def offerJson (o : Offer Card) : Value :=
  .obj ([(ascii "name", .str o.card.name), (ascii "size", .num (.nat o.size)), (ascii "mime", .str o.card.mime),
    (ascii "chunk", .num (.nat o.chunk)), (ascii "chunks", .num (.nat o.chunks))] ++
    match o.card.body with
    | none | some [] => []
    | some body => [(ascii "body", .str body)])

def clampName (s : Units) : Units := s.take 200

def OCTETS : Units := ascii "application/octet-stream"

def clampMime (s : Units) : Units := (if s = [] then OCTETS else s).take 100

/-- What `offer` of a session and `createSender` make of a file and a note. -/
def cardOf (name type : Units) (body : Option Units) : Card where
  name := clampName name
  mime := clampMime (if type = [] then OCTETS else type)
  body := if body = some [] then none else body

section
variable (F : Doubles)

def encodeOffer (o : Offer Card) : Bytes := frame T.OFFER o.id (encode F (offerJson o))

/-- `decodeOffer`; `ofText` is `Number` of a string. A quotient of a size below `2 ^ 53` is rounded up as it is. -/
def decodeOfferBytes (ofText : Units → Option Number) (b : Bytes) : Option (Offer Card) :=
  if isXfer b = false ∨ b.getD 1 0 ≠ T.OFFER then none
  else if MAX_OFFER_BODY < b.length - 6 then none
  else do
    let j ← decode F (b.drop 6)
    if j.isNull then none
    else
      let name ← label F (j.field (ascii "name")) []
      let size := toNumber F ofText (j.field (ascii "size"))
      let mime ← label F (j.field (ascii "mime")) OCTETS
      let chunk := toNumber F ofText (j.field (ascii "chunk"))
      let chunks := toNumber F ofText (j.field (ascii "chunks"))
      let body := match asStr (j.field (ascii "body")) with
        | none | some [] => none
        | some body => some (body.take MAX_OFFER_BODY)
      let size ← size.bind Number.toInt
      let chunks ← chunks.bind Number.toInt
      if size < 0 then none
      else if chunk = some (.nat CHUNK) ∧ chunks = chunksOf size.toNat then
        some ⟨Bytes.getU32 b 2, size.toNat, CHUNK, chunks.toNat, ⟨name.take 200, mime.take 100, body⟩⟩
      else none

/-- The bounds that `offer` of a session asks for. -/
def bounds : Bounds Card where
  noteFits c := match c.body with
    | none | some [] => true
    | some body => (utf8 (quote body)).length ≤ MAX_OFFER_BODY
  offerFits o := (encodeOffer F o).length - 6 ≤ MAX_OFFER_BODY

end

/-! ## Frames -/

theorem isXfer_frame {sub : UInt8} (hlo : T.OFFER ≤ sub) (hhi : sub ≤ T.DONE) (id : Nat) (rest : Bytes) :
    isXfer (frame sub id rest) = true := by
  simp [isXfer, frame, hlo, hhi]

theorem getU32_frame (sub : UInt8) {id : Nat} (h : id < 2 ^ 32) (rest : Bytes) : Bytes.getU32 (frame sub id rest) 2 = id :=
  (Bytes.getU32_mid [CTRL, sub] rest id rfl).trans (Nat.mod_eq_of_lt h)

theorem drop_frame (sub : UInt8) (id : Nat) (rest : Bytes) : (frame sub id rest).drop 6 = rest := by
  rw [frame, ← List.append_assoc]
  exact List.drop_left' (by simp)

/-! ## An offer that was sent is read -/

section
variable {F : Doubles} {o : Offer Card}

/-- An offer as a session makes one. -/
structure Offered (o : Offer Card) : Prop where
  id : o.id < 2 ^ 32
  size : o.size < 2 ^ 53
  chunk : o.chunk = CHUNK
  chunks : o.chunks = chunksOf o.size
  name : o.card.name.length ≤ 200
  mime : o.card.mime.length ≤ 100
  body : ∀ body, o.card.body = some body → body ≠ [] ∧ body.length ≤ MAX_OFFER_BODY

theorem chunksOf_lt {size : Nat} (h : size < 2 ^ 53) : chunksOf size < 2 ^ 53 := by
  rw [chunksOf, CHUNK]
  omega

theorem holds_offerJson (h : Offered o) : (offerJson o).All F.Holds := by
  have hchunk : o.chunk < 2 ^ 53 := by
    rw [h.chunk]
    decide
  have hchunks : o.chunks < 2 ^ 53 := h.chunks ▸ chunksOf_lt h.size
  rw [offerJson]
  split
  · refine ⟨?_, ?_⟩
    · simp [ascii]
    · exact ⟨trivial, holds_nat h.size, trivial, holds_nat hchunk, holds_nat hchunks, trivial⟩
  · refine ⟨?_, ?_⟩
    · simp [ascii]
    · exact ⟨trivial, holds_nat h.size, trivial, holds_nat hchunk, holds_nat hchunks, trivial⟩
  · refine ⟨?_, ?_⟩
    · simp [ascii]
    · exact ⟨trivial, holds_nat h.size, trivial, holds_nat hchunk, holds_nat hchunks, trivial, trivial⟩

theorem Offered.body_cases (h : Offered o) :
    o.card.body = none ∨ ∃ body, o.card.body = some body ∧ body ≠ [] ∧ body.length ≤ MAX_OFFER_BODY := by
  cases hb : o.card.body with
  | none => exact .inl rfl
  | some body => exact .inr ⟨body, rfl, h.body body hb⟩

theorem fields_offerJson (h : Offered o) :
    (offerJson o).field (ascii "name") = some (.str o.card.name) ∧
      (offerJson o).field (ascii "size") = some (.num (.nat o.size)) ∧
      (offerJson o).field (ascii "mime") = some (.str o.card.mime) ∧
      (offerJson o).field (ascii "chunk") = some (.num (.nat o.chunk)) ∧
      (offerJson o).field (ascii "chunks") = some (.num (.nat o.chunks)) ∧
      asStr ((offerJson o).field (ascii "body")) = o.card.body := by
  rcases h.body_cases with hnone | ⟨body, hsome, hne, -⟩
  · simp [offerJson, Value.field, ascii, hnone, List.lookup_cons, asStr]
  · obtain ⟨u, s, rfl⟩ := List.exists_cons_of_ne_nil hne
    simp [offerJson, Value.field, ascii, hsome, List.lookup_cons, asStr]

theorem decodeOffer_encodeOffer (ofText : Units → Option Number) (h : Offered o)
    (hfits : (encodeOffer F o).length - 6 ≤ MAX_OFFER_BODY) : decodeOfferBytes F ofText (encodeOffer F o) = some o := by
  obtain ⟨hname, hsize, hmime, hchunk, hchunks, hbody⟩ := fields_offerJson h
  have hx : isXfer (encodeOffer F o) = true := isXfer_frame (by decide) (by decide) _ _
  have hentry : ¬(isXfer (encodeOffer F o) = false ∨ (encodeOffer F o).getD 1 0 ≠ T.OFFER) := by
    rw [hx]
    simp [encodeOffer, frame]
  have hid : Bytes.getU32 (encodeOffer F o) 2 = o.id := getU32_frame _ h.id _
  have hjson : decode F ((encodeOffer F o).drop 6) = some (offerJson o) := by
    rw [encodeOffer, drop_frame, decode_encode (holds_offerJson h)]
  have hnull : (offerJson o).isNull = false := rfl
  rw [decodeOfferBytes, if_neg hentry, if_neg (Nat.not_lt.mpr hfits)]
  simp only [hjson, Option.bind_eq_bind, Option.bind_some, hnull, Bool.false_eq_true, if_false, hname, hsize, hmime, hchunk,
    hchunks, hbody, label, Value.throws, text, toNumber, Number.toInt_nat, hid]
  have hpos : ¬(o.size : Int) < 0 := Int.not_lt.mpr (Int.natCast_nonneg _)
  have hgeometry : some (Number.nat o.chunk) = some (Number.nat CHUNK) ∧
      (o.chunks : Int) = chunksOf (o.size : Int).toNat := by
    rw [h.chunk, h.chunks, Int.toNat_natCast]
    exact ⟨rfl, rfl⟩
  rw [if_neg hpos, if_pos hgeometry, Int.toNat_natCast, Int.toNat_natCast, List.take_of_length_le h.name,
    List.take_of_length_le h.mime]
  obtain ⟨id, size, chunk, chunks, name, mime, body⟩ := o
  obtain rfl : chunk = CHUNK := h.chunk
  rcases h.body_cases with hnone | ⟨body, hsome, hne, hlen⟩
  · dsimp only at hnone ⊢
    rw [hnone]
  · obtain ⟨u, s, rfl⟩ := List.exists_cons_of_ne_nil hne
    dsimp only at hsome ⊢
    rw [hsome]
    dsimp only
    rw [List.take_of_length_le hlen]

end

/-! ## What a session offers -/

theorem length_flatten_le {α β : Type} {l : List (List α)} {f : List α → List β} (h : ∀ p ∈ l, p.length ≤ (f p).length) :
    l.flatten.length ≤ (l.flatMap f).length := by
  induction l with
  | nil => exact le_rfl
  | cons p l ih =>
      rw [List.flatten_cons, List.flatMap_cons, List.length_append, List.length_append]
      exact Nat.add_le_add (h p List.mem_cons_self) (ih fun q hq => h q (List.mem_cons_of_mem p hq))

theorem length_le_utf8 (s : Units) : s.length ≤ (utf8 s).length := by
  have hone : ∀ p ∈ points s, p.length ≤ (utf8Point p).length := by
    intro p hp
    rcases points_cases hp with ⟨u, rfl⟩ | ⟨u, l, -, -, rfl⟩
    · rw [utf8Point]
      split
      · exact le_rfl
      split
      · exact (by decide : 1 ≤ 2)
      split <;> exact (by decide : 1 ≤ 3)
    · exact (by decide : 2 ≤ 4)
  have hsum := length_flatten_le hone
  rwa [flatten_points] at hsum

theorem length_le_quote (s : Units) : s.length ≤ (quote s).length := by
  have hone : ∀ p ∈ points s, p.length ≤ (escape p).length := by
    intro p hp
    rcases points_cases hp with ⟨u, rfl⟩ | ⟨u, l, -, -, rfl⟩
    · rw [escape]
      repeat' split
      all_goals simp [escapeUnit]
    · rw [escape.eq_2 _ (by simp)]
  have hsum := length_flatten_le hone
  rw [flatten_points] at hsum
  rw [quote, List.length_cons, List.length_append]
  omega

section
variable {F : Doubles}

theorem noteFits_length {c : Card} (h : (bounds F).noteFits c = true) {body : Units} (hbody : c.body = some body) :
    body.length ≤ MAX_OFFER_BODY := by
  cases body with
  | nil => exact Nat.zero_le _
  | cons u s =>
      simp only [bounds, hbody, decide_eq_true_eq] at h
      exact ((length_le_quote _).trans (length_le_utf8 _)).trans h

theorem offered_create {size id : Nat} (hsize : size ≤ MAX_DIRECT) (hid : id < 2 ^ 32) (name type : Units)
    (body : Option Units) (hnote : (bounds F).noteFits (cardOf name type body) = true) :
    Offered (createSender size (cardOf name type body) id).offer where
  id := hid
  size := by
    refine Nat.lt_of_le_of_lt hsize ?_
    decide
  chunk := rfl
  chunks := rfl
  name := List.length_take_le 200 name
  mime := List.length_take_le 100 _
  body b hb := by
    refine ⟨?_, noteFits_length hnote hb⟩
    rintro rfl
    have hcase : (if body = some [] then none else body) = some [] := hb
    split at hcase
    · cases hcase
    · rename_i hne
      exact hne hcase

/-- An offer that goes out is read as it is, and is within the ceilings. -/
theorem offer_read (ofText : Units → Option Number) {x x' : Session Card} {file : Bytes} {name type : Units}
    {body : Option Units} {id : Nat} {link : Link} {now : Time} {r : OfferResult} {out : Out Card} (hid : id < 2 ^ 32)
    (h : Session.offer (bounds F) x file (cardOf name type body) id link now = (r, x', out)) {f : Frame Card}
    (hf : f ∈ out.frames) : ∃ o, f = .offer o ∧ decodeOfferBytes F ofText (encodeOffer F o) = some o ∧
      (encodeOffer F o).length - 6 ≤ MAX_OFFER_BODY ∧ (encodeOffer F o).length ≤ DC_MAX_MESSAGE := by
  have hnone : ∀ {r' : OfferResult}, (r', x, ({} : Out Card)) = (r, x', out) → f ∉ out.frames := by
    intro r' heq
    obtain ⟨-, heq⟩ := Prod.mk.inj heq
    obtain ⟨-, rfl⟩ := Prod.mk.inj heq
    exact List.not_mem_nil
  rw [Session.offer] at h
  split at h
  · exact absurd hf (hnone h)
  split at h
  · exact absurd hf (hnone h)
  split at h
  · exact absurd hf (hnone h)
  rename_i hbig
  split at h
  · exact absurd hf (hnone h)
  split at h
  · exact absurd hf (hnone h)
  rename_i hnote
  dsimp only at h
  split at h
  · exact absurd hf (hnone h)
  rename_i hoffer
  have hoffered := offered_create (F := F) (Nat.le_of_not_lt hbig) hid name type body (by simpa using hnote)
  have hfits : (encodeOffer F (createSender file.length (cardOf name type body) id).offer).length - 6 ≤ MAX_OFFER_BODY := by
    simpa [bounds] using hoffer
  obtain ⟨-, h⟩ := Prod.mk.inj h
  obtain ⟨-, rfl⟩ := Prod.mk.inj h
  have hframe : f = .offer (createSender file.length (cardOf name type body) id).offer := by
    rw [Session.trySend] at hf
    dsimp only at hf
    split at hf
    · exact List.mem_singleton.mp hf
    · cases hf
  refine ⟨_, hframe, decodeOffer_encodeOffer ofText hoffered hfits, hfits, ?_⟩
  rw [MAX_OFFER_BODY] at hfits
  rw [DC_MAX_MESSAGE]
  omega

end

end EncedoChat.Xfer
