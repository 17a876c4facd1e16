import EncedoChat.Eh2.Header
import EncedoChat.Lib.Utf16
import EncedoChat.Lib.Utf8

/-!
# The frame of a message

`lib/msgsize.ts`, `lib/quote.ts`, `envMsg` and `encodeEnvelope` of `lib/envelope.ts`, `lib/origin.ts`.
-/

namespace EncedoChat.Message

open EncedoChat.Units (ascii)

/-! ## How long a text may be -/

/-- The relay's ceiling. -/
def WIRE_MAX : Nat := 65536
def OVERHEAD : Nat := 3072
def MAX_BODY : Nat := WIRE_MAX - OVERHEAD

def bodyBytes (text : Units) : Nat := (Units.utf8 (Units.quote text)).length

def fitsOnWire (text : Units) : Bool := bodyBytes text ≤ MAX_BODY

/-! ## A quote -/

structure QuoteRef where
  id : Units
  text : Units
  au : Option Units
  deriving DecidableEq

/-- Code points kept from the quoted message. -/
def QUOTE_MAX : Nat := 160

/-- `\s`, and what `trim` takes off. -/
def isSpace (u : UInt16) : Bool :=
  (9 ≤ u && u ≤ 13) || u = 0x20 || u = 0xA0 || u = 0x1680 || (0x2000 ≤ u && u ≤ 0x200A) || u = 0x2028 || u = 0x2029
    || u = 0x202F || u = 0x205F || u = 0x3000 || u = 0xFEFF

/-- `.replace(/\s+/g, ' ')`; whether a run of spaces is being read. -/
def collapse (inRun : Bool) : Units → Units
  | [] => []
  | u :: us =>
    if isSpace u then if inRun then collapse true us else 0x20 :: collapse true us
    else u :: collapse false us

def trim (s : Units) : Units := ((s.dropWhile isSpace).reverse.dropWhile isSpace).reverse

def quoteSnippet (text : Units) : Units :=
  let flat := trim (collapse false text)
  let cp := Units.points flat
  if cp.length ≤ QUOTE_MAX then flat else (cp.take QUOTE_MAX).flatten ++ [0x2026]

/-- The first four bytes of a public key, as hex characters. -/
def pubHint (pub : Bytes) : Units :=
  (pub.take 4).flatMap fun b => [Units.hexDigit (b.toNat / 16), Units.hexDigit (b.toNat % 16)]

def makeQuote (id text : Units) (authorPub : Option Bytes) : QuoteRef :=
  { id, text := quoteSnippet text, au := authorPub.map pubHint }

/-- `JSON.stringify` of a quote. -/
def QuoteRef.json (q : QuoteRef) : Units :=
  Units.object <| [(ascii "id", Units.quote q.id), (ascii "text", Units.quote q.text)]
    ++ (q.au.map fun au => (ascii "au", Units.quote au)).toList

/-! ## The envelope -/

def ENVELOPE_V : Nat := 1

/-- `mkId`: the base64 of six random bytes. -/
structure MsgId where
  units : Units
  length_eq : units.length = 8
  plain : ∀ u ∈ units, Units.Plain u

structure MsgEnv where
  id : MsgId
  ts : Nat
  seq : Nat
  body : Units
  re : Option QuoteRef

/-- The id is random and the time the sender's clock. -/
def envMsg (id : MsgId) (ts seq : Nat) (body : Units) (re : Option QuoteRef) : MsgEnv := { id, ts, seq, body, re }

/-- `JSON.stringify` of a message's envelope. -/
def MsgEnv.json (e : MsgEnv) : Units :=
  Units.object <| [(ascii "v", Units.num ENVELOPE_V), (ascii "t", Units.quote (ascii "msg")),
    (ascii "id", Units.quote e.id.units), (ascii "ts", Units.num e.ts), (ascii "seq", Units.num e.seq),
    (ascii "body", Units.quote e.body), (ascii "format", Units.quote (ascii "plain"))]
    ++ (e.re.map fun q => (ascii "re", q.json)).toList

def encodeEnvelope (e : MsgEnv) : Bytes := Units.utf8 e.json

/-! ## The frame -/

def TAG : UInt8 := 0xE1
def MAX_FROM : Nat := 255

/-- Put the sender in front of a frame. -/
def wrap (sender frame : Bytes) : Except String Bytes :=
  if sender.length = 0 ∨ MAX_FROM < sender.length then
    .error ("origin: from of " ++ toString sender.length ++ " bytes does not fit")
  else .ok (TAG :: UInt8.ofNat sender.length :: (sender ++ frame))

def isTagged (bytes : Bytes) : Bool := decide (2 ≤ bytes.length) && bytes.head? = some TAG

/-- Take the sender off a tagged frame; nothing where the length does not fit. -/
def unwrap (bytes : Bytes) : Option (List Char × Bytes) :=
  if isTagged bytes then
    match bytes.drop 1 with
    | n :: rest =>
      if n = 0 ∨ rest.length < n.toNat then none else some (Utf8.decode (rest.take n.toNat), rest.drop n.toNat)
    | [] => none
  else none

/-- The sender and the frame, in whichever form they arrived. -/
def origin (sender : List Char) (data : Bytes) : Option (List Char × Bytes) :=
  if isTagged data then unwrap data else some (sender, data)

/-- A libp2p PeerId as the frame carries it. -/
structure PeerId where
  bytes : Bytes
  nonempty : 0 < bytes.length
  short : bytes.length ≤ 64

/-- AES-GCM under a message key: the header is its associated data, and a tag is added. -/
structure Seal where
  run (aad plain : Bytes) : Bytes
  length_run : ∀ aad plain, (run aad plain).length = plain.length + 16

/-- The length of an ML-KEM-768 ciphertext, and of its public key. -/
def CT_LEN : Nat := 1088
def PUB_LEN : Nat := 1184

/-- A header as the ratchet makes it: its ML-KEM fields are of ML-KEM-768. -/
structure Reachable (h : Eh2.Header) : Prop where
  ct : ∀ b ∈ h.pqCt, b.length = CT_LEN
  pub : ∀ b ∈ h.pqPub, b.length = PUB_LEN

/-- What `encrypt` of the ratchet puts on the wire. -/
def ratchetFrame (S : Seal) (h : Eh2.Header) (plain : Bytes) : Bytes :=
  Eh2.encodeHeader h ++ S.run (Eh2.encodeHeader h) plain

/-- What a room publishes for a message. -/
def published (S : Seal) (self : PeerId) (h : Eh2.Header) (e : MsgEnv) : Except String Bytes :=
  wrap self.bytes (ratchetFrame S h (encodeEnvelope e))

end EncedoChat.Message
