import EncedoChat.Lib.OrdMap
import EncedoChat.Network.Profile

/-!
# The device's networks

`openEnvelope` and the registry of `lib/netprofile.ts`. The registry's text is what the object it was written from
holds: the envelopes, each under the id of its network.
-/

namespace EncedoChat.Network

/-- The id of the public network. -/
def PUBLIC_NETWORK_ID : String := "main"

def FUTURE_TOLERANCE_MS : Int := 10 * 60000

structure Envelope where
  profile : String
  sig : String
  deriving DecidableEq

def Envelope.toJson (e : Envelope) : Json :=
  .obj [("onchato-network", .num 1), ("profile", .str e.profile), ("sig", .str e.sig)]

inductive RefuseWhy where
  | shape
  | signature
  | reserved
  | expired
  | future
  | key
  | rollback
  deriving DecidableEq

structure Refusal where
  why : RefuseWhy
  detail : Option String := none
  deriving DecidableEq

structure Pin where
  rootPub : String
  seq : Nat
  deriving DecidableEq

section
variable (P : Platform)

def envelopeOf (raw : Json) : Except Refusal Envelope := do
  let env ← match raw with
    | .str s => (P.parse s).elim (.error ⟨.shape, some "not JSON"⟩) .ok
    | v => .ok v
  if Json.isNum (env.field "onchato-network") 1 then
    match env.field "profile", env.field "sig" with
    | some (.str profile), some (.str sig) => .ok ⟨profile, sig⟩
    | _, _ => .error ⟨.shape, some "not an onchato network file"⟩
  else .error ⟨.shape, some "not an onchato network file"⟩

/-- The bytes of a profile and what they say. -/
def docOf (env : Envelope) : Option (Bytes × Json) := do
  let bytes ← P.b64d env.profile
  return (bytes, ← P.parseBytes bytes)

def signed (env : Envelope) (bytes : Bytes) (profile : OperatorProfile) : Bool :=
  match P.b64d env.sig, P.b64d profile.rootPub with
  | some sig, some pub => P.verify sig bytes pub
  | _, _ => false

/-- The signed profile in an envelope, whatever its date. -/
def readEnvelope (env : Envelope) : Except Refusal OperatorProfile :=
  match docOf P env with
  | none => .error ⟨.shape, some "the profile is not readable"⟩
  | some (bytes, doc) =>
    match parseOperatorProfile P doc with
    | .error message => .error ⟨.shape, some message⟩
    | .ok profile =>
      if signed P env bytes profile then
        if profile.networkId = PUBLIC_NETWORK_ID then .error ⟨.reserved, none⟩ else .ok profile
      else .error ⟨.signature, none⟩

/-- The pin and the dates. -/
def checkProfile (profile : OperatorProfile) (now : Int) (pinned : Option Pin) (allowExpired : Bool) :
    Except Refusal Unit := do
  refuse (∃ p ∈ pinned, p.rootPub ≠ profile.rootPub) ⟨.key, none⟩
  refuse (∃ p ∈ pinned, profile.seq < p.seq) ⟨.rollback, none⟩
  refuse (now > profile.expires ∧ allowExpired = false) ⟨.expired, none⟩
  refuse (profile.made > now + FUTURE_TOLERANCE_MS) ⟨.future, none⟩

def openEnvelope (raw : Json) (now : Int) (pinned : Option Pin) (allowExpired : Bool) :
    Except Refusal (OperatorProfile × Envelope) := do
  let env ← envelopeOf P raw
  let profile ← readEnvelope P env
  checkProfile profile now pinned allowExpired
  return (profile, ⟨env.profile, Text.trim env.sig⟩)

structure KnownNetwork where
  profile : OperatorProfile
  envelope : Envelope
  expired : Bool
  deriving DecidableEq

abbrev KV := OrdMap String Envelope

/-- `all[id] = env`, for an object that is written back: a prototype is set, not written. -/
def assign (kv : KV) (id : String) (env : Envelope) : KV :=
  if id = "__proto__" ∧ kv.has id = false then kv else kv.set id env

/-- A stored profile, if it opens under its own id. -/
def known (now : Int) (e : String × Envelope) : Option (String × KnownNetwork) :=
  match openEnvelope P e.2.toJson now none true with
  | .ok (profile, envelope) =>
    if profile.networkId = e.1 then some (e.1, ⟨profile, envelope, profile.expires < now⟩) else none
  | .error _ => none

def loadRegistry (kv : KV) (now : Int) : OrdMap String KnownNetwork :=
  (kv.entries.filterMap (known P now)).foldl (fun m e => m.set e.1 e.2) .empty

structure Registered where
  profile : OperatorProfile
  replaced : Bool

def registerNetwork (kv : KV) (raw : Json) (now : Int) : Except Refusal Registered × KV :=
  let first := openEnvelope P raw now none false
  let pinned := first.toOption.bind (fun r => (loadRegistry P kv now).get r.1.networkId)
  let r := match pinned with
    | some k => openEnvelope P raw now (some ⟨k.profile.rootPub, k.profile.seq⟩) false
    | none => first
  match r with
  | .error why => (.error why, kv)
  | .ok (profile, envelope) => (.ok ⟨profile, pinned.isSome⟩, assign kv profile.networkId envelope)

inductive Kept where
  | added
  | newer
  | already
  deriving DecidableEq

def importNetwork (kv : KV) (raw : Json) (now : Int) : Except Refusal (String × Kept) × KV :=
  match openEnvelope P raw now none true with
  | .error why => (.error why, kv)
  | .ok (profile, envelope) =>
    match (loadRegistry P kv now).get profile.networkId with
    | none => (.ok (profile.networkId, .added), assign kv profile.networkId envelope)
    | some held =>
      if held.profile.rootPub ≠ profile.rootPub then (.error ⟨.key, none⟩, kv)
      else if profile.seq ≤ held.profile.seq then (.ok (profile.networkId, .already), kv)
      else (.ok (profile.networkId, .newer), assign kv profile.networkId envelope)

/-! ## A refresh -/

structure Tried where
  url : String
  /-- `none` is `http` -/
  why : Option RefuseWhy

/-- A refresh whose addresses have been asked. -/
structure Asked where
  id : String
  now : Int
  held : KnownNetwork

def askRefresh (kv : KV) (id : String) (now : Int) : Option Asked :=
  ((loadRegistry P kv now).get id).map (fun held => ⟨id, now, held⟩)

/-- What one address has answered; `none` is no answer. -/
def heard (a : Asked) (answer : Option String) : Except (Option RefuseWhy) (OperatorProfile × Envelope) :=
  match answer with
  | none => .error none
  | some text =>
    match openEnvelope P (.str text) a.now (some ⟨a.held.profile.rootPub, a.held.profile.seq⟩) false with
    | .error r => .error (some r.why)
    | .ok r => if r.1.networkId = a.id then .ok r else .error (some .shape)

/-- The first answer of the highest sequence number. -/
def best : List (OperatorProfile × Envelope) → Option (OperatorProfile × Envelope)
  | [] => none
  | r :: rs =>
    some (rs.foldl (fun b a => if b.1.seq < a.1.seq then a else b) r)

structure Refreshed where
  profile : OperatorProfile
  changed : Bool

/-- The answers are in, one from each address. -/
def endRefresh (kv : KV) (a : Asked) (answers : Nat → Option String) :
    Except (Option RefuseWhy) Refreshed × List Tried × KV :=
  let all := a.held.profile.profileUrls.zipIdx.map (fun x => (x.1, heard P a (answers x.2)))
  let tried := all.filterMap (fun x => match x.2 with
    | .error why => some ⟨x.1, why⟩
    | .ok _ => none)
  match best (all.filterMap (fun x => x.2.toOption)) with
  | none => (.error ((tried.head?.map Tried.why).getD none), tried, kv)
  | some b =>
    if a.held.profile.seq < b.1.seq then
      match registerNetwork P kv b.2.toJson a.now with
      | (.error r, kv') => (.error (some r.why), tried, kv')
      | (.ok _, kv') => (.ok ⟨b.1, true⟩, tried, kv')
    else (.ok ⟨a.held.profile, false⟩, tried, kv)

end

end EncedoChat.Network
