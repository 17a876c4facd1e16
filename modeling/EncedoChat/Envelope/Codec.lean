import EncedoChat.File.Crypto
import EncedoChat.Lib.JsonAccess
import EncedoChat.Lib.Points
import EncedoChat.Mentions.Close
import EncedoChat.Message.Frame

/-!
# Envelopes

`lib/envelope.ts`: the builders, `encodeEnvelope` and `decodeEnvelope`, with `isQuoteRef` of `lib/quote.ts`. An envelope is a
JSON object; a field that would be `undefined` is not in it.
-/

namespace EncedoChat.Envelope

open Units JsonText
open Message (QuoteRef ENVELOPE_V)

/-! ## What an envelope carries -/

inductive MsgFormat where
  | plain
  deriving DecidableEq

def MsgFormat.text : MsgFormat → Units
  | plain => ascii "plain"

inductive TypingState where
  | start
  | stop
  deriving DecidableEq

def TypingState.text : TypingState → Units
  | start => ascii "start"
  | stop => ascii "stop"

inductive PresenceState where
  | active
  | away
  | leave
  deriving DecidableEq

def PresenceState.text : PresenceState → Units
  | active => ascii "active"
  | away => ascii "away"
  | leave => ascii "leave"

structure AlbumRef where
  id : Units
  i : Nat
  n : Nat

structure FileMeta where
  cid : Units
  name : Units
  size : Nat
  mime : Units
  key : Units
  chunk : Nat
  chunks : Nat
  alg : String
  exp : Option Number
  body : Option Units
  re : Option QuoteRef
  album : Option AlbumRef

structure SkdFields where
  gid : Units
  gkPub : Units
  epoch : Number
  secret : Units
  chain : Units
  ctr : Option Nat
  roster : List Units
  rmac : Option Units
  name : Option Units

/-- The id is random and the time the sender's clock; the room supplies the number. -/
structure Base where
  id : Units
  ts : Number
  seq : Number

def quoteJson (q : QuoteRef) : Value :=
  .obj ([(ascii "id", .str q.id), (ascii "text", .str q.text)] ++ given (ascii "au") (q.au.map Value.str))

def albumJson (a : AlbumRef) : Value :=
  .obj [(ascii "id", .str a.id), (ascii "i", .num (.nat a.i)), (ascii "n", .num (.nat a.n))]

/-! ## The builders -/

def base (t : Units) (b : Base) : List (Units × Value) :=
  [(ascii "v", .num (.nat ENVELOPE_V)), (ascii "t", .str t), (ascii "id", .str b.id), (ascii "ts", .num b.ts),
    (ascii "seq", .num b.seq)]

def envMsg (b : Base) (body : Units) (format : MsgFormat) (re : Option QuoteRef) : Value :=
  .obj (base (ascii "msg") b ++ [(ascii "body", .str body), (ascii "format", .str format.text)] ++
    given (ascii "re") (re.map quoteJson))

def envTyping (b : Base) (state : TypingState) : Value :=
  .obj (base (ascii "typing") b ++ [(ascii "state", .str state.text)])

def envPresence (b : Base) (state : PresenceState) : Value :=
  .obj (base (ascii "presence") b ++ [(ascii "state", .str state.text)])

def envReaction (b : Base) (to_ emoji : Units) : Value :=
  .obj (base (ascii "reaction") b ++ [(ascii "to", .str to_), (ascii "emoji", .str emoji)])

def envEdit (b : Base) (to_ body : Units) (format : MsgFormat) : Value :=
  .obj (base (ascii "edit") b ++ [(ascii "to", .str to_), (ascii "body", .str body), (ascii "format", .str format.text)])

def envKnock (b : Base) : Value := .obj (base (ascii "knock") b)

def envFile (b : Base) (f : FileMeta) : Value :=
  .obj (base (ascii "file") b ++ [(ascii "cid", .str f.cid), (ascii "name", .str f.name), (ascii "size", .num (.nat f.size)),
    (ascii "mime", .str f.mime), (ascii "key", .str f.key), (ascii "chunk", .num (.nat f.chunk)),
    (ascii "chunks", .num (.nat f.chunks)), (ascii "alg", .str (ascii f.alg))] ++
    given (ascii "exp") (f.exp.map Value.num) ++ given (ascii "body") (f.body.map Value.str) ++
    given (ascii "re") (f.re.map quoteJson) ++ given (ascii "album") (f.album.map albumJson))

def envRtc (b : Base) (to_ : Units) (sig : Value) : Value :=
  .obj (base (ascii "rtc") b ++ [(ascii "to", .str to_), (ascii "sig", sig)])

def envAck (b : Base) (ref : Units) (rts : Number) : Value :=
  .obj (base (ascii "ack") b ++ [(ascii "ref", .str ref), (ascii "rts", .num rts)])

def GROUP_NAME_MAX : Nat := 64

/-- `[...n].slice(0, GROUP_NAME_MAX).join('')` -/
def clampGroupName (n : Units) : Units := cut GROUP_NAME_MAX n

def envGroupSkd (b : Base) (f : SkdFields) : Value :=
  .obj (base (ascii "group-skd") b ++ [(ascii "gid", .str f.gid), (ascii "gkPub", .str f.gkPub), (ascii "epoch", .num f.epoch),
    (ascii "secret", .str f.secret), (ascii "chain", .str f.chain)] ++
    given (ascii "ctr") (f.ctr.map fun n => .num (.nat n)) ++ [(ascii "roster", .arr (f.roster.map Value.str))] ++
    given (ascii "rmac") (f.rmac.map Value.str) ++ given (ascii "name") (f.name.map fun n => .str (clampGroupName n)))

def envGroupSkdReq (b : Base) (gid : Units) (epoch : Number) : Value :=
  .obj (base (ascii "group-skd-req") b ++ [(ascii "gid", .str gid), (ascii "epoch", .num epoch)])

/-! ## What is accepted -/

def isStr (v : Option Value) : Bool := (asStr v).isSome

def isNum (v : Option Value) : Bool := (asNum v).isSome

/-- `Number.isInteger(v) && v >= 0` -/
def natural (v : Option Value) : Option Nat := (asInt v).bind fun n => if 0 ≤ n then some n.toNat else none

def isText (lo hi : Nat) (v : Option Value) : Bool :=
  match asStr v with
  | some s => lo ≤ s.length && s.length ≤ hi
  | none => false

def isFilled (v : Option Value) : Bool :=
  match asStr v with
  | some s => 0 < s.length
  | none => false

/-- `/^[0-9a-f]{n}$/` -/
def isHex (n : Nat) (v : Option Value) : Bool :=
  match asStr v with
  | some s => s.length = n && s.all fun u => (48 ≤ u && u ≤ 57) || (97 ≤ u && u ≤ 102)
  | none => false

def isOneOf (texts : List Units) (v : Option Value) : Bool :=
  match asStr v with
  | some s => texts.any fun t => s = t
  | none => false

def QUOTE_MAX_WIRE : Nat := 400

/-- What is no object has none of the fields. -/
def isQuoteRef (x : Value) : Bool :=
  isText 1 64 (x.field (ascii "id")) && isText 0 QUOTE_MAX_WIRE (x.field (ascii "text")) &&
    ((x.field (ascii "au")).isNone || isHex 8 (x.field (ascii "au")))

def ALBUM_MAX : Nat := 32

def isAlbumRef (a : Value) : Bool :=
  isHex 16 (a.field (ascii "id")) &&
    match natural (a.field (ascii "n")), natural (a.field (ascii "i")) with
    | some n, some i => 2 ≤ n && n ≤ ALBUM_MAX && i < n
    | _, _ => false

def FORMATS : List Units := [ascii "plain"]

def TYPING : List Units := [ascii "start", ascii "stop"]

def PRESENCE : List Units := [ascii "active", ascii "away", ascii "leave"]

/-- Drop a `re` that would not render; keep the envelope it rode in on. -/
def sanitizeQuote (m : Value) : Value :=
  match m.field (ascii "re") with
  | some re => if isQuoteRef re then m else m.remove (ascii "re")
  | none => m

def sanitizeAlbum (m : Value) : Value :=
  match m.field (ascii "album") with
  | some album => if isAlbumRef album then m else m.remove (ascii "album")
  | none => m

def sanitizeSkdName (m : Value) : Value :=
  match m.field (ascii "name") with
  | none => m
  | some (.str name) => m.put (ascii "name") (.str (clampGroupName name))
  | some _ => m.remove (ascii "name")

inductive Kind where
  | msg
  | typing
  | presence
  | reaction
  | edit
  | knock
  | file
  | rtc
  | ack
  | groupSkd
  | groupSkdReq
  | ikRotate
  | unknown
  deriving DecidableEq

/-- The cases of the switch. -/
def kinds : List (Units × Kind) :=
  [(ascii "msg", .msg), (ascii "typing", .typing), (ascii "presence", .presence), (ascii "reaction", .reaction),
    (ascii "edit", .edit), (ascii "knock", .knock), (ascii "file", .file), (ascii "rtc", .rtc), (ascii "ack", .ack),
    (ascii "group-skd", .groupSkd), (ascii "group-skd-req", .groupSkdReq), (ascii "ik-rotate", .ikRotate)]

def kindOf (t : Units) : Kind := (kinds.lookup t).getD .unknown

/-- What a case asks for. -/
def check (m : Value) : Kind → Bool
  | .msg => isStr (m.field (ascii "body")) && isOneOf FORMATS (m.field (ascii "format"))
  | .typing => isOneOf TYPING (m.field (ascii "state"))
  | .presence => isOneOf PRESENCE (m.field (ascii "state"))
  | .reaction => isStr (m.field (ascii "to")) && isStr (m.field (ascii "emoji"))
  | .edit => isFilled (m.field (ascii "to")) && isFilled (m.field (ascii "body")) && isOneOf FORMATS (m.field (ascii "format"))
  | .knock => true
  | .file =>
    isStr (m.field (ascii "cid")) && isStr (m.field (ascii "name")) && isStr (m.field (ascii "mime")) &&
      isStr (m.field (ascii "key")) && isOneOf [ascii File.FILE_ALG] (m.field (ascii "alg")) &&
      isNum (m.field (ascii "exp")) && ((m.field (ascii "body")).isNone || isStr (m.field (ascii "body"))) &&
      match natural (m.field (ascii "size")), natural (m.field (ascii "chunk")), natural (m.field (ascii "chunks")) with
      | some size, some chunk, some chunks =>
        size ≤ File.MAX_FILE && 0 < chunk && chunk ≤ File.MAX_CHUNK && chunks = File.count size chunk
      | _, _, _ => false
  | .rtc => isStr (m.field (ascii "to")) && ((m.field (ascii "sig")).map Value.isNull) = some false
  | .ack => isStr (m.field (ascii "ref")) && isNum (m.field (ascii "rts"))
  | .groupSkd =>
    isStr (m.field (ascii "gid")) && isStr (m.field (ascii "gkPub")) && isNum (m.field (ascii "epoch")) &&
      isStr (m.field (ascii "secret")) && isStr (m.field (ascii "chain")) &&
      (match m.field (ascii "roster") with | some (.arr _) => true | _ => false) &&
      ((m.field (ascii "ctr")).isNone || (natural (m.field (ascii "ctr"))).isSome)
  | .groupSkdReq => isStr (m.field (ascii "gid")) && isNum (m.field (ascii "epoch"))
  | .ikRotate => isStr (m.field (ascii "newPub")) && isNum (m.field (ascii "effectiveFrom"))
  | .unknown => true

/-- What a case makes of an envelope that it takes. -/
def sanitize (m : Value) : Kind → Value
  | .msg => sanitizeQuote m
  | .file => sanitizeAlbum (sanitizeQuote m)
  | .groupSkd => sanitizeSkdName m
  | _ => m

/-- `decodeEnvelope`, of the JSON. -/
def accept (m : Value) : Option Value :=
  if asNum (m.field (ascii "v")) ≠ some (.nat ENVELOPE_V) then none
  else match asStr (m.field (ascii "t")) with
    | some t =>
      if isStr (m.field (ascii "id")) && isNum (m.field (ascii "ts")) && isNum (m.field (ascii "seq")) &&
          check m (kindOf t) then some (sanitize m (kindOf t))
      else none
    | none => none

section
variable (F : Doubles)

def encodeEnvelope (e : Value) : Bytes := encode F e

def decodeEnvelope (bytes : Bytes) : Option Value := (decode F bytes).bind accept

end

end EncedoChat.Envelope
