import EncedoChat.Lib.OrdMap
import EncedoChat.Network.Registry

/-!
# A profile moves

`lib/migrate.ts`: what of a browser's store a profile takes along, and how it is written into another. A stored text that
was written from the networks of the device is these networks; what any other text makes of them is for the browser to
say.
-/

namespace EncedoChat.Migrate

open Network (Platform KV Envelope RefuseWhy openEnvelope loadRegistry)

/-- What the browser answers; nothing is assumed of it. -/
structure Browser extends Platform where
  /-- the networks in a text, none where it does not parse -/
  registry : String → KV

inductive Stored where
  | text (s : String)
  | networks (kv : KV)

/-- A text that is not empty. -/
def Stored.name : Stored → Option String
  | .text s => if s = "" then none else some s
  | .networks _ => none

abbrev Store := OrdMap String Stored

def REGISTRY_KEY : String := "ec-networks"

def NOT_PORTABLE : List String := ["ec-idkey-swept"]

def BROWSER_KEYS : List String := ["ec-lang", "ec-theme", "ec-nodes", "ec-transport", "ec-sidebar-w", "ec-close-tray"]

def identityKey (name : String) : String := "ec-soft-id-" ++ name

def softBindingKey (name : String) : String := "ec-soft-net-" ++ name

def nodesKey (net : String) : String := "ec-nodes:" ++ net

def transportKey (net : String) : String := "ec-transport:" ++ net

/-- The network in a bundle. -/
structure BundleNet where
  id : String
  envelope : Json

structure Bundle where
  name : String
  kid : String
  made : Int
  storagePrefix : Option String
  keys : OrdMap String Stored
  net : Option BundleNet

def isHexLower (c : Char) : Bool := Text.between '0' '9' c || Text.between 'a' 'f' c

/-- `/^ec-[0-9a-f]{16}-$/` -/
def isStoragePrefix (s : String) : Bool :=
  Text.startsWith s "ec-" && s.toList.length = 20 && ((s.toList.drop 3).take 16).all isHexLower &&
    s.toList.drop 19 = ['-']

/-- A prefix that `ownedBy` throws at. -/
def badPrefix (storagePrefix : String) : Bool := storagePrefix ≠ "" && !isStoragePrefix storagePrefix

def badPrefixError (storagePrefix : String) : String := "not a storage prefix: " ++ storagePrefix

/-- A key of this identity, under its prefix or carrying its KID. -/
def ownedBy (k kid storagePrefix : String) : Bool :=
  Text.startsWith k "ec-" &&
    ((kid ≠ "" && Text.includes k kid) || (storagePrefix ≠ "" && Text.startsWith k storagePrefix))

/-- A key that may travel at all. -/
def portable (k : String) : Bool := Text.startsWith k "ec-" && k ∉ NOT_PORTABLE

/-! ## The export -/

/-- The network of a profile. -/
def netOf (store : Store) (name : String) : Option String := (store.get (softBindingKey name)).bind Stored.name

def netKeys (store : Store) (name : String) : List String :=
  (netOf store name).elim [] fun net => [softBindingKey name, nodesKey net, transportKey net]

/-- A record that goes along. -/
def selected (store : Store) (name kid storagePrefix : String) (deviceOnly : List String) (k : String) : Bool :=
  portable k && k ∉ deviceOnly &&
    (k = identityKey name || ownedBy k kid storagePrefix || k ∈ BROWSER_KEYS || k ∈ netKeys store name)

def collectProfile (store : Store) (name kid storagePrefix : String) (deviceOnly : List String) :
    Except String (OrdMap String Stored) := do
  refuse (badPrefix storagePrefix = true ∧ ∃ k ∈ store.keys, portable k = true ∧ k ∉ deviceOnly ∧ k ≠ identityKey name)
    (badPrefixError storagePrefix)
  return store.filter fun k _ => selected store name kid storagePrefix deviceOnly k

def readRegistry (B : Browser) : Option Stored → KV
  | none => .empty
  | some (.networks kv) => kv
  | some (.text s) => if s = "" then .empty else B.registry s

/-- The networks of the device. -/
def registryOf (B : Browser) (store : Store) : KV := readRegistry B (store.get REGISTRY_KEY)

/-- An identity's text that counts: neither missing nor empty. -/
def sealedIn (keys : OrdMap String Stored) (name : String) : Bool :=
  match keys.get (identityKey name) with
  | none => false
  | some (.text s) => s ≠ ""
  | some (.networks _) => true

/-- The network that goes along; a binding with no profile behind it moves nothing. -/
def bundleNet (B : Browser) (store : Store) (name : String) : Except String (Option BundleNet) :=
  match netOf store name with
  | none => .ok none
  | some net =>
    match (registryOf B store).get net with
    | none => .error ("the network " ++ net ++ " of " ++ name ++ " is not on this device")
    | some env => .ok (some ⟨net, env.toJson⟩)

/-- The bundle of `exportProfile`, as it goes under the seal. -/
def exportBundle (B : Browser) (store : Store) (name kid : String) (made : Int) (storagePrefix : String)
    (deviceOnly : List String) : Except String Bundle := do
  let keys ← collectProfile store name kid storagePrefix deviceOnly
  refuse (sealedIn keys name = false) ("no sealed identity for " ++ name)
  let net ← bundleNet B store name
  return ⟨name, kid, made, if storagePrefix = "" then none else some storagePrefix, keys, net⟩

/-- `seal` and `unseal` of `profile.ts` over the JSON of a bundle. -/
structure Sealing where
  File : Type
  /-- `r` is the salt and the nonce -/
  sealing : String → Bundle → Nat → File
  unsealing : String → File → Except String Bundle
  opens : ∀ password b r, unsealing password (sealing password b r) = .ok b

def exportProfile (Z : Sealing) (B : Browser) (store : Store) (name kid password : String) (made : Int)
    (storagePrefix : String) (deviceOnly : List String) (r : Nat) : Except String Z.File := do
  let bundle ← exportBundle B store name kid made storagePrefix deviceOnly
  refuse (password = "") "a profile needs a password"
  return Z.sealing password bundle r

def openBundle (Z : Sealing) (file : Z.File) (password : String) : Except String Bundle := Z.unsealing password file

/-! ## The import -/

def conflictsWith (store : Store) (b : Bundle) : Option String :=
  if store.has (identityKey b.name) then some b.name else none

/-- Is this identity already here, under whatever name? -/
def identityHere (store : Store) (b : Bundle) : Except String Bool := do
  let storagePrefix := b.storagePrefix.getD ""
  refuse (store.keys ≠ [] ∧ badPrefix storagePrefix = true) (badPrefixError storagePrefix)
  return store.keys.any fun k => ownedBy k b.kid storagePrefix

def whyText : RefuseWhy → String
  | .shape => "shape"
  | .signature => "signature"
  | .reserved => "reserved"
  | .expired => "expired"
  | .future => "future"
  | .key => "key"
  | .rollback => "rollback"

/-- `importNetwork` over the store: what it writes is the whole registry. -/
def importNetwork (B : Browser) (store : Store) (raw : Json) (now : Int) :
    Except Network.Refusal String × Store :=
  match Network.importNetwork B.toPlatform (registryOf B store) raw now with
  | (.error why, _) => (.error why, store)
  | (.ok (id, .already), _) => (.ok id, store)
  | (.ok (id, _), kv) => (.ok id, store.set REGISTRY_KEY (.networks kv))

/-- The network of a bundle is taken in, or the error. -/
def takeNetwork (B : Browser) (store : Store) (net : Option BundleNet) (now : Int) : Except String Unit × Store :=
  match net with
  | none => (.ok (), store)
  | some n =>
    match importNetwork B store n.envelope now with
    | (.error r, store) =>
      (.error (if r.why = .key then "the network " ++ n.id ++ " is already on this device under another operator key"
        else "the network profile in the file does not open (" ++ whyText r.why ++ ")"), store)
    | (.ok id, store) =>
      (if id ≠ n.id then .error "the network profile in the file is for another network" else .ok (), store)

/-- The records are written; a file is not to be trusted about their keys. -/
def writeKeys (store : Store) (keys : List (String × Stored)) : Nat × Store :=
  keys.foldl (fun r e => if portable e.1 then (r.1 + 1, r.2.set e.1 e.2) else r) (0, store)

def applyBundle (B : Browser) (store : Store) (b : Bundle) (now : Int) : Except String Nat × Store :=
  match conflictsWith store b with
  | some clash => (.error ("a profile named " ++ clash ++ " is already here"), store)
  | none =>
    match identityHere store b with
    | .error e => (.error e, store)
    | .ok true => (.error "this identity is already here under another name", store)
    | .ok false =>
      match takeNetwork B store b.net now with
      | (.error e, store) => (.error e, store)
      | (.ok (), store) => ((.ok (writeKeys store b.keys.entries).1), (writeKeys store b.keys.entries).2)

end EncedoChat.Migrate
