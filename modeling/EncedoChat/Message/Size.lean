import EncedoChat.Message.Frame

/-!
# What fits the relay

Each codec's length in what it encodes, and the frame's from them. A frame is within the relay's ceiling exactly
when the overhead that `fitsOnWire` sets aside pays for the header and the quote.
-/

namespace EncedoChat.Message

open EncedoChat.Units (ascii)

/-! ## Header and quote -/

/-- The bytes of a header. -/
def headerCost (h : Eh2.Header) : Nat :=
  Eh2.HDR_LEN + (if h.pqCt.isSome || h.pqPub.isSome then 1 else 0) + (if h.pqCt.isSome then 2 + CT_LEN else 0)
    + (if h.pqPub.isSome then 2 + PUB_LEN else 0)

theorem length_encodeField {f : Option Bytes} {n : Nat} (h : ∀ b ∈ f, b.length = n) :
    (Eh2.encodeField f).length = if f.isSome then 2 + n else 0 := by
  cases f with
  | none => rfl
  | some b => rw [Eh2.encodeField, List.length_append, Bytes.length_u16be, h b rfl, Option.isSome_some, if_pos rfl]

theorem length_encodeHeader {h : Eh2.Header} (hr : Reachable h) : (Eh2.encodeHeader h).length = headerCost h := by
  rw [headerCost, ← length_encodeField hr.ct, ← length_encodeField hr.pub]
  simp only [Eh2.encodeHeader, Eh2.HDR_LEN, List.length_append, Bytes.length_u32be, h.dhPub.2, List.length_cons,
    List.length_nil]
  split
  · simp only [List.length_append, List.length_cons, List.length_nil]
    omega
  case isFalse hpq =>
    rw [Bool.or_eq_true, not_or, Option.not_isSome_iff_eq_none, Option.not_isSome_iff_eq_none] at hpq
    rw [hpq.1, hpq.2]
    rfl

/-- The message that a reply answers. -/
structure Answered where
  id : Units
  text : Units
  author : Option Bytes

def Answered.quote (a : Answered) : QuoteRef := makeQuote a.id a.text a.author

/-- The bytes of a reply's `re` in its envelope. -/
def Answered.cost (a : Answered) : Nat :=
  21 + bodyBytes a.id + bodyBytes (quoteSnippet a.text) + (a.author.elim 0 fun pub => 8 + 2 * min 4 pub.length)

def reCost (re : Option Answered) : Nat := re.elim 0 Answered.cost

theorem plain_hexDigit : ∀ n < 16, Units.Plain (Units.hexDigit n) := by decide

theorem plain_pubHint {pub : Bytes} {u : UInt16} (h : u ∈ pubHint pub) : Units.Plain u := by
  obtain ⟨b, -, hu⟩ := List.mem_flatMap.mp h
  have hb : b.toNat < 256 := b.toNat_lt
  rcases List.mem_pair.mp hu with rfl | rfl
  · exact plain_hexDigit _ (by omega)
  · exact plain_hexDigit _ (by omega)

theorem length_pubHint (pub : Bytes) : (pubHint pub).length = 2 * min 4 pub.length := by
  simp [pubHint, List.length_flatMap, Nat.mul_comm]

theorem length_quoteJson (a : Answered) : 6 + (Units.utf8 a.quote.json).length = a.cost := by
  have hid : (Units.utf8 (Units.quote (ascii "id"))).length = 4 := by decide
  have htext : (Units.utf8 (Units.quote (ascii "text"))).length = 6 := by decide
  have hau : (Units.utf8 (Units.quote (ascii "au"))).length = 4 := by decide
  rw [QuoteRef.json, Units.length_object]
  · cases ha : a.author with
    | none => simp [Answered.quote, makeQuote, Answered.cost, ha, hid, htext, bodyBytes]; omega
    | some pub =>
        have hhint : (Units.utf8 (Units.quote (pubHint pub))).length = 2 * min 4 pub.length + 2 := by
          rw [Units.length_quote_plain fun u => plain_pubHint, length_pubHint]
        simp [Answered.quote, makeQuote, Answered.cost, ha, hid, htext, hau, hhint, bodyBytes]; omega
  · intro f hf
    simp only [List.cons_append, List.nil_append, List.mem_cons, Option.mem_toList, Option.map_eq_some_iff] at hf
    rcases hf with rfl | rfl | ⟨au, -, rfl⟩ <;> exact Units.clean_quote _

/-! ## Envelope and frame -/

theorem length_envelope (id : MsgId) (ts seq : Nat) (text : Units) (re : Option Answered) :
    (encodeEnvelope (envMsg id ts seq text (re.map Answered.quote))).length
      = 71 + (Units.num ts).length + (Units.num seq).length + bodyBytes text + reCost re := by
  have hv : (Units.utf8 (Units.quote (ascii "v"))).length = 3 := by decide
  have hone : (Units.utf8 (Units.num ENVELOPE_V)).length = 1 := by rw [Units.length_num]; decide
  have ht : (Units.utf8 (Units.quote (ascii "t"))).length = 3 := by decide
  have hmsg : (Units.utf8 (Units.quote (ascii "msg"))).length = 5 := by decide
  have hid : (Units.utf8 (Units.quote (ascii "id"))).length = 4 := by decide
  have hts : (Units.utf8 (Units.quote (ascii "ts"))).length = 4 := by decide
  have hseq : (Units.utf8 (Units.quote (ascii "seq"))).length = 5 := by decide
  have hbody : (Units.utf8 (Units.quote (ascii "body"))).length = 6 := by decide
  have hformat : (Units.utf8 (Units.quote (ascii "format"))).length = 8 := by decide
  have hplain : (Units.utf8 (Units.quote (ascii "plain"))).length = 7 := by decide
  have hre : (Units.utf8 (Units.quote (ascii "re"))).length = 4 := by decide
  have hmid : (Units.utf8 (Units.quote id.units)).length = 10 := by
    rw [Units.length_quote_plain id.plain, id.length_eq]
  rw [encodeEnvelope, MsgEnv.json, Units.length_object]
  · cases re with
    | none =>
        simp [envMsg, hv, hone, ht, hmsg, hid, hts, hseq, hbody, hformat, hplain, hmid, Units.length_num, bodyBytes,
          reCost]
        omega
    | some a =>
        have hquote := length_quoteJson a
        simp [envMsg, hv, hone, ht, hmsg, hid, hts, hseq, hbody, hformat, hplain, hmid, hre, Units.length_num,
          bodyBytes, reCost] at hquote ⊢
        omega
  · intro f hf
    simp only [List.cons_append, List.nil_append, List.mem_cons, Option.mem_toList, Option.map_eq_some_iff] at hf
    rcases hf with rfl | rfl | rfl | rfl | rfl | rfl | rfl | ⟨q, -, rfl⟩
    · exact Units.clean_num ENVELOPE_V
    · exact Units.clean_quote _
    · exact Units.clean_quote _
    · exact Units.clean_num _
    · exact Units.clean_num _
    · exact Units.clean_quote _
    · exact Units.clean_quote _
    · exact Units.clean_object _

/-- The bytes of a frame beside its text's. -/
def frameCost (self : PeerId) (h : Eh2.Header) (ts seq : Nat) (re : Option Answered) : Nat :=
  89 + self.bytes.length + headerCost h + (Units.num ts).length + (Units.num seq).length + reCost re

theorem length_published (S : Seal) (self : PeerId) {h : Eh2.Header} (hr : Reachable h) (id : MsgId) (ts seq : Nat)
    (text : Units) (re : Option Answered) :
    ∃ frame, published S self h (envMsg id ts seq text (re.map Answered.quote)) = .ok frame
      ∧ frame.length = frameCost self h ts seq re + bodyBytes text := by
  have hlen : ¬ (self.bytes.length = 0 ∨ MAX_FROM < self.bytes.length) := by
    have hpos := self.nonempty
    have hshort := self.short
    simp only [MAX_FROM]
    omega
  refine ⟨_, if_neg hlen, ?_⟩
  simp only [List.length_cons, List.length_append, ratchetFrame, S.length_run, length_encodeHeader hr,
    length_envelope, frameCost]
  omega

/-- A text that fits is a frame that fits exactly if the overhead, and what the text leaves of its own room, hold
the rest. -/
theorem frame_fits (S : Seal) (self : PeerId) {h : Eh2.Header} (hr : Reachable h) (id : MsgId) (ts seq : Nat)
    {text : Units} (htext : fitsOnWire text = true) (re : Option Answered) :
    ∃ frame, published S self h (envMsg id ts seq text (re.map Answered.quote)) = .ok frame
      ∧ (frame.length ≤ WIRE_MAX ↔ frameCost self h ts seq re ≤ OVERHEAD + (MAX_BODY - bodyBytes text)) := by
  obtain ⟨frame, hframe, hlen⟩ := length_published S self hr id ts seq text re
  have hbody : bodyBytes text ≤ MAX_BODY := of_decide_eq_true htext
  refine ⟨frame, hframe, ?_⟩
  rw [hlen]
  simp only [WIRE_MAX, OVERHEAD, MAX_BODY] at hbody ⊢
  omega

/-- A quote of at most 568 bytes is paid for, whatever the header and whoever sends. -/
theorem frame_fits_of_cost (S : Seal) (self : PeerId) {h : Eh2.Header} (hr : Reachable h) (id : MsgId) {ts seq : Nat}
    (hts : ts < 10 ^ 16) (hseq : seq < 10 ^ 16) {text : Units} (htext : fitsOnWire text = true) {re : Option Answered}
    (hre : reCost re ≤ 568) : ∃ frame, published S self h (envMsg id ts seq text (re.map Answered.quote)) = .ok frame
      ∧ frame.length ≤ WIRE_MAX := by
  obtain ⟨frame, hframe, hiff⟩ := length_published S self hr id ts seq text re
  have hbody : bodyBytes text ≤ MAX_BODY := of_decide_eq_true htext
  have htsLen := Units.length_num_le (by decide) hts
  have hseqLen := Units.length_num_le (by decide) hseq
  have hfrom := self.short
  have hhdr : headerCost h ≤ 2319 := by
    simp only [headerCost, Eh2.HDR_LEN, CT_LEN, PUB_LEN]
    split <;> split <;> split <;> omega
  refine ⟨frame, hframe, ?_⟩
  simp only [frameCost, WIRE_MAX, OVERHEAD, MAX_BODY] at hiff hbody ⊢
  omega

/-! ## A run of it -/

section Sample

theorem plain_sampleId : ((ascii "AAECAwQF").all fun u => decide (Units.Plain u)) = true := by decide

def sampleId : MsgId := ⟨ascii "AAECAwQF", rfl, fun u hu => of_decide_eq_true (List.all_eq_true.mp plain_sampleId u hu)⟩

/-- A seal by its length. -/
def sampleSeal : Seal := ⟨fun _ plain => plain ++ List.replicate 16 0, fun _ plain => by
  rw [List.length_append, List.length_replicate]⟩

def samplePeer : PeerId := ⟨List.replicate 52 0x31, by simp, by simp⟩

/-- A header with all that a header can carry. -/
def fullHeader : Eh2.Header :=
  ⟨⟨List.replicate 32 0, List.length_replicate⟩, 0, 0, some (List.replicate CT_LEN 0), some (List.replicate PUB_LEN 0)⟩

theorem reachable_full : Reachable fullHeader where
  ct b hb := by
    obtain rfl := Option.some.inj hb
    exact List.length_replicate
  pub b hb := by
    obtain rfl := Option.some.inj hb
    exact List.length_replicate

/-- As many letters as the composer lets through. -/
def longText : Units := List.replicate (MAX_BODY - 2) 0x61

theorem bodyBytes_long : bodyBytes longText = MAX_BODY := by
  have hplain : ∀ u ∈ longText, Units.Plain u := by
    intro u hu
    rw [List.eq_of_mem_replicate hu]
    decide
  rw [bodyBytes, Units.length_quote_plain hplain, longText, List.length_replicate]
  rfl

theorem fits_long : fitsOnWire longText = true := decide_eq_true (le_of_eq bodyBytes_long)

/-- A message of 160 emoji, answered. -/
def emoji : Answered :=
  ⟨sampleId.units, (List.replicate 160 [0xD83D, 0xDE00]).flatten, some (List.replicate 32 0)⟩

theorem frame_fits_short : ∃ frame, published sampleSeal samplePeer fullHeader
    (envMsg sampleId 1700000000000 0 (ascii "ok") ((some emoji).map Answered.quote)) = .ok frame
      ∧ (frame.length ≤ WIRE_MAX ↔
        frameCost samplePeer fullHeader 1700000000000 0 (some emoji) ≤ OVERHEAD + (MAX_BODY - bodyBytes (ascii "ok"))) :=
  frame_fits sampleSeal samplePeer reachable_full sampleId 1700000000000 0 (by decide) (some emoji)

set_option maxRecDepth 4000 in
theorem cost_emoji : reCost (some emoji) = 689 := by decide

/-- The longest text that fits, in answer to a line of emoji. -/
theorem long_answer : fitsOnWire longText = true ∧ ∃ frame, published sampleSeal samplePeer fullHeader
    (envMsg sampleId 1700000000000 0 longText ((some emoji).map Answered.quote)) = .ok frame
      ∧ WIRE_MAX < frame.length := by
  obtain ⟨frame, hframe, hlen⟩ := length_published sampleSeal samplePeer reachable_full sampleId 1700000000000 0
    longText (some emoji)
  have hcost : frameCost samplePeer fullHeader 1700000000000 0 (some emoji) = 3163 := by
    have hts : (Units.num 1700000000000).length = 13 := by decide
    have hseq : (Units.num 0).length = 1 := rfl
    have hfrom : samplePeer.bytes.length = 52 := List.length_replicate
    have hhdr : headerCost fullHeader = 2319 := rfl
    rw [frameCost, hts, hseq, hfrom, hhdr, cost_emoji]
  refine ⟨fits_long, frame, hframe, ?_⟩
  rw [hlen, hcost, bodyBytes_long]
  decide

end Sample

end EncedoChat.Message
