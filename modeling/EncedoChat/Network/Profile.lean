import EncedoChat.Lib.Bytes
import EncedoChat.Lib.Except
import EncedoChat.Lib.Json

/-!
# What an operator signs

`parseOperatorProfile` of `lib/netprofile.ts`, with `parseNodeList` of `lib/nodelist.ts`.
-/

namespace EncedoChat.Network

structure Url where
  protocol : String
  hostname : String
  username : String
  password : String
  pathname : String
  search : String
  hash : String
  origin : String
  href : String
  deriving DecidableEq

/-- What the platform answers; nothing is assumed of it. -/
structure Platform where
  atob : String → Option Bytes
  btoa : Bytes → String
  /-- `JSON.parse(text)` -/
  parse : String → Option Json
  /-- `JSON.parse(new TextDecoder().decode(bytes))` -/
  parseBytes : Bytes → Option Json
  /-- `new URL(text)`, or the message of its exception -/
  url : String → Except String Url
  numText : Rat → String
  /-- `ed25519.verify(sig, msg, pub)`; an exception is `false` -/
  verify : Bytes → Bytes → Bytes → Bool

namespace Platform

variable (P : Platform)

def b64d (s : String) : Option Bytes := P.atob (Text.trim s)

/-- `String(v)` -/
def text (v : Option Json) : String := (v.map (Json.text P.numText)).getD "undefined"

theorem b64d_trim (s : String) : P.b64d (Text.trim s) = P.b64d s := by
  rw [b64d, b64d, Text.trim_trim]

end Platform

structure PublishedNode where
  name : String
  addr : String
  w : Option Rat
  deriving DecidableEq

structure AppAddress where
  origin : String
  path : String
  deriving DecidableEq

inductive Transport where
  | nodeOnly
  deriving DecidableEq

inductive Access where
  | allowlist
  deriving DecidableEq

inductive Record where
  | none
  | sub
  | email
  deriving DecidableEq

structure Enroll where
  issuer : String
  record : Record
  deriving DecidableEq

structure Policy where
  transport : Option Transport := .none
  softwareProfiles : Option Bool := .none
  allowPublic : Option Bool := .none
  access : Option Access := .none
  enroll : Option Enroll := .none
  deriving DecidableEq

structure OperatorProfile where
  networkId : String
  operator : String
  rootPub : String
  seq : Nat
  made : Int
  expires : Int
  nodes : List PublishedNode
  stores : List String
  app : AppAddress
  legacyApp : List AppAddress
  profileUrls : List String
  feedback : Option String
  home : String
  policy : Policy
  deriving DecidableEq

def MAX_LIST : Nat := 8

def MAX_NODES : Nat := 24

def MAX_NAME : Nat := 40

def MAX_ADDR : Nat := 400

def MAX_WEIGHT : Rat := 1000

/-! ## The node list -/

/-- `\p{Cc}`, `\p{Cf}`, `\p{Zl}` and `\p{Zp}`. -/
def isInvisible (c : Char) : Bool :=
  let n := c.toNat
  n < 0x20 || (0x7F ≤ n && n ≤ 0x9F) || n = 0xAD || (0x600 ≤ n && n ≤ 0x605) || n = 0x61C || n = 0x6DD || n = 0x70F ||
    n = 0x890 || n = 0x891 || n = 0x8E2 || n = 0x180E || (0x200B ≤ n && n ≤ 0x200F) || (0x2028 ≤ n && n ≤ 0x202E) ||
    (0x2060 ≤ n && n ≤ 0x2064) || (0x2066 ≤ n && n ≤ 0x206F) || n = 0xFEFF || (0xFFF9 ≤ n && n ≤ 0xFFFB) ||
    n = 0x110BD || n = 0x110CD || (0x13430 ≤ n && n ≤ 0x1343F) || (0x1BCA0 ≤ n && n ≤ 0x1BCA3) ||
    (0x1D173 ≤ n && n ≤ 0x1D17A) || n = 0xE0001 || (0xE0020 ≤ n && n ≤ 0xE007F)

def nodeName (name : String) : String :=
  Text.take MAX_NAME (Text.trim (String.ofList (name.toList.filter (fun c => !isInvisible c))))

/-- A weight that is a number, not negative and finite. -/
def nodeWeight (w : Option Json) : Option Rat :=
  match w with
  | some (.num q) => if 0 ≤ q then some (min q MAX_WEIGHT) else none
  | _ => none

/-- An entry of the list, if it can be used. -/
def parseNode (seen : List String) (n : Json) : Option PublishedNode :=
  match n.field "addr", n.field "name" with
  | some (.str a), some (.str m) =>
    let addr := Text.trim a
    let name := nodeName m
    if Text.startsWith addr "/" = false ∨ Text.includes addr "/p2p/" = false then none
    else if Text.length addr > MAX_ADDR ∨ addr.toList.any (fun c => Text.isSpace c || c.toNat < 0x20) then none
    else if addr ∈ seen then none
    else if name = "" then none
    else some ⟨name, addr, nodeWeight (n.field "w")⟩
  | _, _ => none

def parseNodes : List String → List Json → List PublishedNode
  | _, [] => []
  | seen, n :: ns =>
    match parseNode seen n with
    | some p => p :: parseNodes (p.addr :: seen) ns
    | none => parseNodes seen ns

/-- `parseNodeList(JSON.stringify({ v: 1, nodes }))` -/
def parseNodeList (nodes : Option Json) : Except String (List PublishedNode) :=
  match nodes with
  | some (.arr (n :: ns)) =>
    match parseNodes [] ((n :: ns).take MAX_NODES) with
    | [] => .error "no usable node in the list"
    | out => .ok out
  | _ => .error "the list contains no nodes"

/-! ## Addresses -/

def isLoopback (host : String) : Bool := host = "localhost" || host = "127.0.0.1" || host = "[::1]"

def httpsUrl (P : Platform) (v : Option Json) (what : String) : Except String Url :=
  match v with
  | some (.str s) => do
    let u ← P.url s
    refuse (u.protocol ≠ "https:" ∧ ¬(u.protocol = "http:" ∧ isLoopback u.hostname)) (what ++ " must be https")
    refuse (u.username ≠ "" ∨ u.password ≠ "" ∨ u.search ≠ "" ∨ u.hash ≠ "")
      (what ++ " carries credentials, a query or a fragment")
    return u
  | _ => .error (what ++ " is missing")

/-- `s.replace(/\/$/, '')` -/
def dropSlash (s : String) : String := if Text.endsWith s "/" then String.ofList s.toList.dropLast else s

def bareOrigin (P : Platform) (v : Option Json) (what : String) : Except String String := do
  let u ← httpsUrl P v what
  refuse (u.pathname ≠ "/" ∨ dropSlash (P.text v) ≠ u.origin) (what ++ " must be a bare origin")
  return u.origin

def appAddress (P : Platform) (v : Option Json) (what : String) : Except String AppAddress :=
  match v.bind (fun o => o.field "path") with
  | some (.str path) => do
    refuse (Text.startsWith path "/" = false) (what ++ ".path must start with /")
    return ⟨← bareOrigin P (v.bind (fun o => o.field "origin")) (what ++ ".origin"), path⟩
  | _ => .error (what ++ ".path must start with /")

/-- A list of at most `MAX_LIST`, each entry under its own name. -/
def list {α : Type} (v : Option Json) (what : String) (each : Option Json → String → Except String α)
    (allowEmpty : Bool) : Except String (List α) :=
  let bad := what ++ " must be a list of 1-" ++ toString MAX_LIST
  match v with
  | some (.arr xs) => do
    refuse ((allowEmpty = false ∧ xs = []) ∨ MAX_LIST < xs.length) bad
    xs.zipIdx.mapM (fun x => each (some x.1) (what ++ "[" ++ toString x.2 ++ "]"))
  | _ => .error bad

/-! ## The policy -/

/-- A key that may be left out. -/
def optional {α : Type} (v : Option Json) (each : Json → Except String α) : Except String (Option α) :=
  match v with
  | none => .ok none
  | some v => (each v).map some

def boolean (what : String) (v : Json) : Except String Bool :=
  match v with
  | .bool b => .ok b
  | _ => .error ("policy." ++ what ++ " must be true or false")

def parseRecord (v : Json) : Except String Record :=
  match v with
  | .str "none" => .ok .none
  | .str "sub" => .ok .sub
  | .str "email" => .ok .email
  | _ => .error "policy.enroll.record may be \"none\", \"sub\" or \"email\""

def parseEnroll (P : Platform) (access : Option Access) (e : Json) : Except String Enroll := do
  refuse (Json.isStr (e.field "method") "oidc" = false) "policy.enroll.method may only be \"oidc\""
  refuse (access ≠ some .allowlist) "policy.enroll needs policy.access \"allowlist\""
  refuse ((P.url (P.text (e.field "issuer"))).toOption.map Url.protocol ≠ some "https:")
    "policy.enroll.issuer must be an https address"
  let record ← parseRecord (Json.orElse (e.field "record") (.str "none"))
  return ⟨P.text (e.field "issuer"), record⟩

def parsePolicy (P : Platform) (p : Json) : Except String Policy := do
  let transport ← optional (p.field "transport") (fun v =>
    if Json.isStr (some v) "node-only" then .ok .nodeOnly else .error "policy.transport may only be \"node-only\"")
  let softwareProfiles ← optional (p.field "softwareProfiles") (boolean "softwareProfiles")
  let allowPublic ← optional (p.field "allowPublic") (boolean "allowPublic")
  let access ← optional (p.field "access") (fun v =>
    if Json.isStr (some v) "allowlist" then .ok .allowlist else .error "policy.access may only be \"allowlist\"")
  let enroll ← optional (p.field "enroll") (parseEnroll P access)
  return { transport, softwareProfiles, allowPublic, access, enroll }

/-! ## The profile -/

/-- `/^[A-Za-z0-9._-]{1,64}$/` -/
def isNetworkId (s : String) : Bool :=
  Text.isRun (fun c => c.isAlphanum || c = '.' || c = '_' || c = '-') 1 64 s

def networkIdOf (o : Json) : Except String String :=
  match o.field "networkId" with
  | some (.str s) =>
    if isNetworkId s then .ok s else .error "networkId must be 1-64 letters, digits, dot, dash or underscore"
  | _ => .error "networkId must be 1-64 letters, digits, dot, dash or underscore"

def operatorOf (o : Json) : Except String String :=
  match o.field "operator" with
  | some (.str s) =>
    if Text.trim s = "" ∨ Text.length s > 100 then .error "operator must be a name of 1-100 characters"
    else .ok (Text.trim s)
  | _ => .error "operator must be a name of 1-100 characters"

def rootOf (P : Platform) (o : Json) : Except String Bytes :=
  match P.b64d (P.text (o.field "rootPub")) with
  | none => .error "rootPub is not base64"
  | some root => if root.length = 32 then .ok root else .error "rootPub must be a 32-byte Ed25519 key"

def seqOf (o : Json) : Except String Nat :=
  match Json.safeInt (o.field "seq") with
  | some n => if n < 0 then .error "seq must be a whole number" else .ok n.toNat
  | none => .error "seq must be a whole number"

def datesOf (o : Json) : Except String (Int × Int) :=
  match Json.safeInt (o.field "made"), Json.safeInt (o.field "expires") with
  | some made, some expires =>
    if expires ≤ made then .error "made/expires must be dates with expires after made" else .ok (made, expires)
  | _, _ => .error "made/expires must be dates with expires after made"

def feedbackOf (P : Platform) (o : Json) : Except String (Option String) :=
  match o.field "feedback" with
  | some .null => .ok none
  | v => (httpsUrl P v "feedback").map (fun u => some u.href)

def parseOperatorProfile (P : Platform) (o : Json) : Except String OperatorProfile := do
  refuse (Json.isNum (o.field "v") 1 = false) "not a version 1 network profile"
  let networkId ← networkIdOf o
  let operator ← operatorOf o
  let root ← rootOf P o
  let seq ← seqOf o
  let (made, expires) ← datesOf o
  let nodes ← parseNodeList (o.field "nodes")
  let policy ← parsePolicy P (Json.orElse (o.field "policy") (.obj []))
  let stores ← list (o.field "stores") "stores" (bareOrigin P) false
  let app ← appAddress P (o.field "app") "app"
  let legacyApp ← list (some (Json.orElse (o.field "legacyApp") (.arr []))) "legacyApp" (appAddress P) true
  let profileUrls ← list (o.field "profileUrls") "profileUrls" (fun x w => (httpsUrl P x w).map Url.href) false
  let feedback ← feedbackOf P o
  let home ← httpsUrl P (o.field "home") "home"
  return { networkId, operator, rootPub := P.btoa root, seq, made, expires, nodes, stores, app, legacyApp, profileUrls,
           feedback, home := home.href, policy }

end EncedoChat.Network
