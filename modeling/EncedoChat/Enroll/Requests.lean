import EncedoChat.Enroll.Allowlist
import EncedoChat.Lib.Json
import EncedoChat.Lib.OrdMap

/-!
# The requests of the enrolment service

`makeEnroll` of `enroll.mjs`: a device asks for a challenge and answers it with the administrator's code or with a sign-in.
-/

namespace EncedoChat.Enroll

def DIGITS : Nat := 8

def STEP_S : Nat := 30

def NONCE_TTL_MS : Nat := 120000

def OIDC_NONCE_TTL_MS : Nat := 10 * 60000

def PER_IP_FAILURES : Nat := 5

def PER_IP_WINDOW_MS : Nat := 10 * 60000

def LOCK_AFTER : Nat := 20

/-! ## The code -/

/-- A counter that is no unsigned number of 64 bits. -/
structure RangeError where
  deriving DecidableEq

def padStart (n : Nat) (s : String) : String := String.ofList (List.replicate (n - s.toList.length) '0') ++ s

/-- The code of the window `counter`. -/
def totpAt (hmac : Bytes → Bytes → Bytes) (key : Bytes) (counter : Int) : Except RangeError String :=
  if 0 ≤ counter ∧ counter < 2 ^ 64 then
    let h := hmac key (Bytes.u64be counter.toNat)
    let o := (h.getD 19 0 &&& 15).toNat
    let n := ((h.getD o 0 &&& 127).toNat <<< 24) ||| ((h.getD (o + 1) 0).toNat <<< 16) |||
      ((h.getD (o + 2) 0).toNat <<< 8) ||| (h.getD (o + 3) 0).toNat
    .ok (padStart DIGITS (toString (n % 10 ^ DIGITS)))
  else .error ⟨⟩

/-- `/^\d{8}$/` -/
def isCode (code : String) : Bool := Text.isRun (Text.between '0' '9') DIGITS DIGITS code

def firstWindow (hmac : Bytes → Bytes → Bytes) (key : Bytes) (code : String) : List Int → Except RangeError (Option Int)
  | [] => .ok none
  | c :: cs => do
    let at' ← totpAt hmac key c
    if at' = code then .ok (some c) else firstWindow hmac key code cs

/-- The window a clock shows. -/
def windowOf (nowMs : Nat) : Int := nowMs / 1000 / STEP_S

/-- The window a code belongs to: this one or one either side. -/
def totpMatch (hmac : Bytes → Bytes → Bytes) (key : Bytes) (code : String) (nowMs : Nat) : Except RangeError (Option Int) :=
  if isCode code then
    let now := windowOf nowMs
    firstWindow hmac key code [now, now - 1, now + 1]
  else .ok none

/-! ## What is signed -/

def enrollMessage (networkId nonce code : String) : String :=
  "onchato-enroll-v1\n" ++ networkId ++ "\n" ++ nonce ++ "\n" ++ code

def statusMessage (networkId nonce : String) : String := "onchato-status-v1\n" ++ networkId ++ "\n" ++ nonce

structure Platform extends Writing where
  /-- HMAC-SHA-1 -/
  hmac : Bytes → Bytes → Bytes
  /-- Ed25519: the key, the text and the signature in base64 -/
  verify : Bytes → String → String → Bool
  numText : Rat → String

def signedBy (P : Platform) (peerId msg sig : String) : Bool :=
  match ed25519OfPeerId peerId with
  | none => false
  | some raw => P.verify raw msg sig

/-! ## The service -/

inductive Record where
  | none
  | sub
  | email
  deriving DecidableEq

/-- `oidc`, without the provider. -/
structure SignIn where
  clientId : String
  redirectUri : String
  scope : String
  allowDomain : String
  allowGroup : String
  record : Record

structure Config where
  networkId : String
  /-- what `seed()` reads -/
  key : Option Bytes
  oidc : Option SignIn

/-- The readings of the clock in one request: at the address, at the challenge, at the code and at the end. -/
structure Clock where
  asked : Nat
  swept : Nat
  matched : Nat
  noted : Nat
  asked_le : asked ≤ swept := by decide
  swept_le : swept ≤ matched := by decide
  matched_le : matched ≤ noted := by decide

structure State where
  /-- nonce to expiry -/
  nonces : OrdMap String Nat
  /-- window and code to expiry -/
  used : OrdMap (Int × String) Nat
  /-- address to failure times -/
  perIp : OrdMap String (List Nat)
  failures : Nat
  locked : Bool
  list : Option String

inductive Body where
  | error (error : String) (why : Option String)
  | done
  | standing (listed locked : Bool)
  | challenge (nonce networkId : String)
  | signIn (nonce networkId : String) (authorize : Option Json) (clientId redirectUri scope : String)

structure Answer where
  status : Nat
  body : Body

namespace Answer

def locked : Answer :=
  ⟨423, .error "locked" (some "enrolment is locked after too many wrong codes; the administrator has to unlock it")⟩

def slowDown (what : String) : Answer :=
  ⟨429, .error "slow-down" (some ("too many " ++ what ++ " from this address; try again in 10 minutes"))⟩

def shape : Answer := ⟨400, .error "shape" none⟩

def challenge (why : Option String) : Answer := ⟨400, .error "challenge" why⟩

def signature (why : Option String) : Answer := ⟨400, .error "signature" why⟩

def code (why : String) : Answer := ⟨403, .error "code" (some why)⟩

def notSetUp (status : Nat) (why : String) : Answer := ⟨status, .error "not-set-up" (some why)⟩

def refusedSignIn (why : String) : Answer :=
  ⟨403, .error (if why = "domain" ∨ why = "group" then why else "sign-in") (some why)⟩

def ok : Answer := ⟨200, .done⟩

end Answer

/-- The sentence for a signature that is not the PeerId's. -/
def NOT_SIGNED : String := "not signed by the key of this PeerId"

namespace State

variable (C : Config) (P : Platform) (s : State)

def sweep (t : Nat) : State :=
  { s with nonces := s.nonces.filter (fun _ exp => t ≤ exp), used := s.used.filter (fun _ exp => t ≤ exp) }

def takeNonce (t : Nat) (n : String) : Bool × State :=
  let s := s.sweep t
  if s.nonces.has n then (true, { s with nonces := s.nonces.delete n }) else (false, s)

/-- The failures of an address in the last 10 minutes. -/
def recent (ip : String) (t : Nat) : List Nat :=
  ((s.perIp.get ip).getD []).filter (fun x => t < x + PER_IP_WINDOW_MS)

def ipBlocked (ip : String) (t : Nat) : Bool := PER_IP_FAILURES ≤ (s.recent ip t).length

def failIp (ip : String) (t : Nat) : State := { s with perIp := s.perIp.set ip (s.recent ip t ++ [t]) }

def fail (ip : String) (t : Nat) : State :=
  let s := s.failIp ip t
  let n := s.failures + 1
  { s with failures := n, locked := s.locked || LOCK_AFTER ≤ n }

/-- `authorize` is what the provider's discovery gives. -/
def challenge (kind nonce : String) (authorize : Except String (Option Json)) (t : Clock) : State × Option Answer :=
  let s := s.sweep t.asked
  match C.oidc with
  | some o =>
    if kind = "oidc" then
      ({ s with nonces := s.nonces.set nonce (t.noted + OIDC_NONCE_TTL_MS) },
        match authorize with
        | .error _ => none
        | .ok authorize => some ⟨200, .signIn nonce C.networkId authorize o.clientId o.redirectUri o.scope⟩)
    else ({ s with nonces := s.nonces.set nonce (t.noted + NONCE_TTL_MS) }, some ⟨200, .challenge nonce C.networkId⟩)
  | none => ({ s with nonces := s.nonces.set nonce (t.noted + NONCE_TTL_MS) }, some ⟨200, .challenge nonce C.networkId⟩)

/-- A code that a window has and no device used. -/
def admitCode (peerId : String) (counter : Int) (code : String) (label : Option Json) (t : Nat) : State × Option Answer :=
  let s := { s with used := s.used.set (counter, code) (t + 3 * STEP_S * 1000) }
  match Json.label P.numText label with
  | none => (s, none)
  | some label => ({ s with list := addToList P.toWriting s.list peerId (Text.take 60 label) t }, some .ok)

def checkCode (ip peerId code : String) (label : Option Json) (t : Clock) : State × Option Answer :=
  match C.key with
  | none => (s, some (.notSetUp 503 "this node has no enrolment code set up"))
  | some key =>
    match totpMatch P.hmac key code t.matched with
    | .error _ => (s, none)
    | .ok none => (s.fail ip t.noted, some (.code "wrong or expired code"))
    | .ok (some counter) =>
      if s.used.has (counter, code) then
        (s.fail ip t.noted, some (.code "this code was already used; wait for the next one"))
      else s.admitCode P peerId counter code label t.noted

/-- A request that throws has no answer. -/
def enroll (body : Json) (ip : String) (t : Clock) : State × Option Answer :=
  if body.isNull then (s, none)
  else if s.locked then (s, some .locked)
  else if s.ipBlocked ip t.asked then (s, some (.slowDown "wrong codes"))
  else
    match Json.asStr (body.field "peerId"), Json.asStr (body.field "nonce"), Json.asStr (body.field "code"),
      Json.asStr (body.field "sig") with
    | some peerId, some nonce, some code, some sig =>
      match s.takeNonce t.swept nonce with
      | (false, s) => (s, some (.challenge (some "the challenge is unknown or expired; ask for a new one")))
      | (true, s) =>
        if signedBy P peerId (enrollMessage C.networkId nonce code) sig then
          s.checkCode C P ip peerId code (body.field "label") t
        else (s, some (.signature (some NOT_SIGNED)))
    | _, _, _, _ => (s, some .shape)

/-- What the provider is asked to redeem. -/
structure Redeem where
  peerId : String
  nonce : String
  code : String
  verifier : String

/-- `enrollOidc` up to the provider: an answer, or what to redeem. -/
def askOidc (body : Json) (ip : String) (t : Clock) : State × Except (Option Answer) (SignIn × Redeem) :=
  if body.isNull then (s, .error none)
  else
    match C.oidc with
    | none => (s, .error (some (.notSetUp 404 "this node admits devices by code, not by sign-in")))
    | some o =>
      if s.ipBlocked ip t.asked then (s, .error (some (.slowDown "refused sign-ins")))
      else
        match Json.asStr (body.field "peerId"), Json.asStr (body.field "nonce"), Json.asStr (body.field "code"),
          Json.asStr (body.field "verifier"), Json.asStr (body.field "sig") with
        | some peerId, some nonce, some code, some verifier, some sig =>
          if 2048 < Text.length code ∨ 128 < Text.length verifier then (s, .error (some .shape))
          else
            match s.takeNonce t.swept nonce with
            | (false, s) =>
              (s, .error (some (.challenge (some "the challenge is unknown or expired; start again"))))
            | (true, s) =>
              if signedBy P peerId (enrollMessage C.networkId nonce ("oidc:" ++ code)) sig then
                (s, .ok (o, ⟨peerId, nonce, code, verifier⟩))
              else (s, .error (some (.signature (some NOT_SIGNED))))
        | _, _, _, _, _ => (s, .error (some .shape))

/-- `[v].filter(Boolean)`, as text. -/
def kept (v : Option Json) : Option (List String) :=
  if Json.truthy v then (Json.label P.numText v).map ([·]) else some []

/-- What goes on the list beside the PeerId, in parts; `none` if it has no text. -/
def tag (record : Record) (who : Json) : Option (List String) :=
  match record with
  | .none => some []
  | .sub =>
    match who.field "sub" with
    | none => some ["sub:undefined"]
    | some v => if v.throws then none else some ["sub:" ++ v.text P.numText]
  | .email =>
    match who.field "email" with
    | none | some .null => kept P (who.field "sub")
    | some email => kept P (some email)

/-- `enrollOidc` from the provider's answer on. -/
def tellOidc (o : SignIn) (r : Redeem) (ip : String) (label : Option Json) (who : Except String Json) (t : Clock) :
    State × Option Answer :=
  match who with
  | .error why => (s.failIp ip t.noted, some (.refusedSignIn why))
  | .ok who =>
    match tag P o.record who, Json.label P.numText label with
    | some tag, some label =>
      let line := " ".intercalate (tag ++ if label = "" then [] else [label])
      ({ s with list := addToList P.toWriting s.list r.peerId line t.noted }, some .ok)
    | _, _ => (s, none)

def enrollOidc (body : Json) (ip : String) (who : SignIn → Redeem → Except String Json) (t : Clock) :
    State × Option Answer :=
  match s.askOidc C P body ip t with
  | (s, .error a) => (s, a)
  | (s, .ok (o, r)) => s.tellOidc P o r ip (body.field "label") (who o r) t

def status (body : Json) (t : Clock) : State × Option Answer :=
  if body.isNull then (s, none)
  else
    match Json.asStr (body.field "peerId"), Json.asStr (body.field "nonce"), Json.asStr (body.field "sig") with
    | some peerId, some nonce, some sig =>
      match s.takeNonce t.swept nonce with
      | (false, s) => (s, some (.challenge none))
      | (true, s) =>
        if signedBy P peerId (statusMessage C.networkId nonce) sig then
          (s, some ⟨200, .standing (peerId ∈ listed s.list) s.locked⟩)
        else (s, some (.signature none))
    | _, _, _ => (s, some .shape)

/-- The administrator removes the lock and the count. -/
def unlock : State := { s with failures := 0, locked := false }

end State

end EncedoChat.Enroll
