import Mathlib
import EncedoChat.Lib.Except
import EncedoChat.Lib.Json

/-!
# The identity provider

`oidc.mjs`: the node redeems a device's sign-in at the provider's token endpoint and checks the id_token. Discovery and
keys are kept for an hour; the keys are fetched once more when none of them fits.
-/

namespace EncedoChat.Enroll.Oidc

structure Alg where
  hash : Option String
  ec : Bool
  pss : Option Nat

/-- What every object answers to. -/
def INHERITED : List String :=
  ["constructor", "__defineGetter__", "__defineSetter__", "hasOwnProperty", "__lookupGetter__", "__lookupSetter__",
    "isPrototypeOf", "propertyIsEnumerable", "toString", "valueOf", "__proto__", "toLocaleString"]

def ALGS : List (String × Alg) :=
  [("EdDSA", ⟨none, false, none⟩),
    ("ES256", ⟨some "sha256", true, none⟩), ("ES384", ⟨some "sha384", true, none⟩), ("ES512", ⟨some "sha512", true, none⟩),
    ("RS256", ⟨some "sha256", false, none⟩), ("RS384", ⟨some "sha384", false, none⟩),
    ("RS512", ⟨some "sha512", false, none⟩),
    ("PS256", ⟨some "sha256", false, some 32⟩), ("PS384", ⟨some "sha384", false, some 48⟩),
    ("PS512", ⟨some "sha512", false, some 64⟩)]

structure Platform where
  /-- `JSON.parse(b64u(s).toString('utf8'))` -/
  decode : String → Except String Json
  /-- the key as a JWK, how it is used, what is signed, and the signature in base64url -/
  verify : Json → Alg → String → String → Except String Bool
  /-- SHA-256 of a text, in base64url -/
  digest : String → String
  lower : String → String
  numText : Rat → String
  /-- the message of a `TypeError` -/
  typeError : String

/-- The parts of a text between its dots. -/
def parts (s : String) : List String := (s.toList.splitOn '.').map String.ofList

theorem parts_three {a b c : String} (ha : '.' ∉ a.toList) (hb : '.' ∉ b.toList) (hc : '.' ∉ c.toList) :
    parts (a ++ "." ++ b ++ "." ++ c) = [a, b, c] := by
  have htext : (a ++ "." ++ b ++ "." ++ c).toList = a.toList ++ '.' :: (b.toList ++ '.' :: c.toList) := by
    simp
  rw [parts, htext, List.splitOn_append_cons_self_of_not_mem ha, List.splitOn_append_cons_self_of_not_mem hb,
    List.splitOn_eq_singleton hc]
  simp

/-- `a === b` of what was read from two texts. -/
def strictEq : Option Json → Option Json → Bool
  | none, none => true
  | some .null, some .null => true
  | some (.bool a), some (.bool b) => a = b
  | some (.num a), some (.num b) => a = b
  | some (.infinity a), some (.infinity b) => a = b
  | some (.str a), some (.str b) => a = b
  | _, _ => false

section
variable (P : Platform)

/-- The nonce of a sign-in, from the challenge and the PeerId. -/
def oidcNonce (networkId challengeNonce peerId : String) : String :=
  P.digest ("onchato-oidc-v1\n" ++ networkId ++ "\n" ++ challengeNonce ++ "\n" ++ peerId)

/-- `ALGS[alg]` -/
def algOf (alg : Option Json) : Except String Alg :=
  if (alg.map Json.throws).getD false then .error P.typeError
  else
    let name := (alg.map (Json.text P.numText)).getD "undefined"
    match ALGS.lookup name with
    | some a => .ok a
    | none => if name ∈ INHERITED then .ok ⟨none, false, none⟩ else .error ("algorithm not accepted: " ++ name)

def verifyJws (jwt : String) (jwk : Json) : Except String Json :=
  match parts jwt with
  | [head, body, sig] => do
    let header ← P.decode head
    refuse (header.isNull = true) P.typeError
    let a ← algOf P (header.field "alg")
    let good ← P.verify jwk a (head ++ "." ++ body) sig
    refuse (good = false) "bad signature"
    P.decode body
  | _ => .error "not a JWT"

structure Claims where
  issuer : String
  clientId : String
  nonce : String
  now : Nat
  allowDomain : String
  allowGroup : String

/-- `typeof v !== 'number' || v < n` -/
def notFrom (v : Option Json) (n : Int) : Bool :=
  match v with
  | some (.num q) => q < n
  | some (.infinity negative) => negative
  | _ => true

/-- `typeof v === 'number' && v > n` -/
def isAfter (v : Option Json) (n : Int) : Bool :=
  match v with
  | some (.num q) => n < q
  | some (.infinity negative) => !negative
  | _ => false

/-- `Array.isArray(v) ? v : [v]` -/
def asList (v : Option Json) : List (Option Json) :=
  match v with
  | some (.arr xs) => xs.map some
  | v => [v]

/-- The e-mail is of the domain. -/
def ofDomain (p : Json) (allowDomain : String) : Bool :=
  Text.endsWith ((Json.asStr (p.field "email")).elim "" P.lower) ("@" ++ P.lower allowDomain)

/-- `Array.isArray(v) && v.includes(s)` -/
def hasStr (v : Option Json) (s : String) : Bool :=
  match v with
  | some (.arr xs) => xs.any (fun x => Json.isStr (some x) s)
  | _ => false

def isFalse (v : Option Json) : Bool :=
  match v with
  | some (.bool false) => true
  | _ => false

def checkClaims (p : Json) (c : Claims) : Except String Json := do
  let t : Int := c.now / 1000
  refuse (p.isNull = true) P.typeError
  refuse (¬Json.isStr (p.field "iss") c.issuer) "issuer"
  let aud := asList (p.field "aud")
  refuse (¬aud.any (fun v => Json.isStr v c.clientId)) "audience"
  refuse (1 < aud.length ∧ (p.field "azp").isSome ∧ ¬Json.isStr (p.field "azp") c.clientId) "audience"
  refuse (notFrom (p.field "exp") (t - 60)) "expired"
  refuse (isAfter (p.field "iat") (t + 300)) "issued in the future"
  refuse (¬Json.isStr (p.field "nonce") c.nonce) "nonce"
  refuse (c.allowDomain ≠ "" ∧ ¬(ofDomain P p c.allowDomain ∧ ¬isFalse (p.field "email_verified")) ∧
    ¬Json.isStr (p.field "hd") c.allowDomain) "domain"
  refuse (c.allowGroup ≠ "" ∧ ¬hasStr (p.field "groups") c.allowGroup) "group"
  return p

end

/-! ## The provider -/

structure Response where
  ok : Bool
  status : Nat
  json : Except String Json

/-- What a request over the network comes to; an error is its message. -/
abbrev Fetch := Except String Response

/-- What `discovery` and `jwks` meet: the clock before and after, and what the network answers. -/
structure Visit where
  keysAsked : Nat
  metaAsked : Nat
  metaAnswer : Fetch
  metaNoted : Nat
  keysAnswer : Fetch
  keysNoted : Nat

/-- One sign-in: the first discovery, the token endpoint, the keys twice, and the clock at the claims. -/
structure Talk where
  opening : Visit
  token : Fetch
  first : Visit
  second : Visit
  checked : Nat

/-- What `makeProvider` keeps; `null` is not there yet. -/
structure Provider where
  doc : Json
  docAt : Nat
  keys : Json
  keysAt : Nat

structure Client where
  issuer : String
  clientId : String

namespace Provider

variable (P : Platform) (c : Client) (p : Provider)

def empty : Provider := ⟨.null, 0, .null, 0⟩

/-- `r.json()` of an answer that is `r.ok`. -/
def answered (what : String) (r : Fetch) : Except String Json := do
  let r ← r
  refuse (r.ok = false) (what ++ ": HTTP " ++ toString r.status)
  r.json

def discovered (r : Fetch) : Except String Json := do
  let m ← answered "discovery" r
  refuse (m.isNull = true) P.typeError
  refuse (¬Json.isStr (m.field "issuer") c.issuer)
    ("discovery: the issuer is " ++ (m.field "issuer").elim "undefined" (Json.text P.numText) ++ ", not " ++ c.issuer)
  return m

def discovery (v : Visit) : Except String Json × Provider :=
  if Json.truthy (some p.doc) ∧ v.metaAsked < p.docAt + 3600000 then (.ok p.doc, p)
  else
    match discovered P c v.metaAnswer with
    | .error e => (.error e, p)
    | .ok m => (.ok m, { p with doc := m, docAt := v.metaNoted })

/-- `(await r.json()).keys ?? []` -/
def keysOf (r : Fetch) : Except String Json := do
  let m ← answered "keys" r
  refuse (m.isNull = true) P.typeError
  return Json.orElse (m.field "keys") (.arr [])

def jwks (force : Bool) (v : Visit) : Except String Json × Provider :=
  if Json.truthy (some p.keys) ∧ v.keysAsked < p.keysAt + (if force then 60000 else 3600000) then (.ok p.keys, p)
  else
    match p.discovery P c v with
    | (.error e, p) => (.error e, p)
    | (.ok _, p) =>
      match keysOf P v.keysAnswer with
      | .error e => (.error e, p)
      | .ok keys => (.ok keys, { p with keys := keys, keysAt := v.keysNoted })

/-- The key may have signed: it has the header's `kid`, if there is one, and is for signatures. -/
def fits (header k : Json) : Bool :=
  (!Json.truthy (header.field "kid") || strictEq (k.field "kid") (header.field "kid")) &&
    (!Json.truthy (k.field "use") || Json.isStr (k.field "use") "sig")

def pick (ks header : Json) : Except String (List Json) :=
  match ks with
  | .arr xs => do
    refuse (xs ≠ [] ∧ header.isNull = true) P.typeError
    refuse (xs.any Json.isNull = true) P.typeError
    return xs.filter (fits header)
  | _ => .error P.typeError

/-- The payload under the first of the keys that verifies, or the last error. -/
def firstGood (jwt : String) : List Json → Option String → Except (Option String) Json
  | [], last => .error last
  | k :: ks, last =>
    match verifyJws P jwt k with
    | .ok payload => .ok payload
    | .error e => firstGood jwt ks (some e)

def verified (jwt : String) (header : Json) (t : Talk) : Except String Json × Provider :=
  match p.jwks P c false t.first with
  | (ks, p) =>
    match ks >>= (pick P · header) with
    | .error e => (.error e, p)
    | .ok ks =>
      match firstGood P jwt ks none with
      | .ok payload => (.ok payload, p)
      | .error last =>
        match p.jwks P c true t.second with
        | (ks, p) =>
          match ks >>= (pick P · header) with
          | .error e => (.error e, p)
          | .ok ks =>
            match firstGood P jwt ks last with
            | .ok payload => (.ok payload, p)
            | .error last => (.error (last.getD "no key for this token"), p)

/-- The ways to authenticate are something that can be searched. -/
def hasMethods (m : Json) : Bool :=
  match m.field "token_endpoint_auth_methods_supported" with
  | none | some .null | some (.arr _) | some (.str _) => true
  | _ => false

/-- The id_token of the token endpoint's answer. -/
def idToken (r : Fetch) : Except String String := do
  let r ← r
  let body := match r.json with
    | .ok body => body
    | .error _ => .obj []
  refuse (body.isNull = true) P.typeError
  match r.ok, Json.asStr (body.field "id_token") with
  | true, some token => return token
  | _, _ =>
    let error := match body.field "error" with
      | none | some .null => "HTTP " ++ toString r.status
      | some v => v.text P.numText
    let described := match body.field "error_description" with
      | some v => if Json.truthy (some v) then " - " ++ v.text P.numText else ""
      | none => ""
    .error ("token: " ++ error ++ described)

def tokenHeader (m : Json) (r : Fetch) : Except String (String × Json) := do
  refuse (hasMethods m = false) P.typeError
  let token ← idToken P r
  let header ← P.decode ((parts token).headD "")
  return (token, header)

def redeem (t : Talk) (nonce allowDomain allowGroup : String) : Except String Json × Provider :=
  match p.discovery P c t.opening with
  | (.error e, p) => (.error e, p)
  | (.ok m, p) =>
    match tokenHeader P m t.token with
    | .error e => (.error e, p)
    | .ok (token, header) =>
      match p.verified P c token header t with
      | (.error e, p) => (.error e, p)
      | (.ok payload, p) => (checkClaims P payload ⟨c.issuer, c.clientId, nonce, t.checked, allowDomain, allowGroup⟩, p)

end Provider

/-! ## What is accepted -/

section
variable {P : Platform} {c : Client} {p : Provider}

/-- What `checkClaims` makes sure of. -/
structure Accepted (P : Platform) (payload : Json) (c : Claims) : Prop where
  issuer : Json.isStr (payload.field "iss") c.issuer = true
  audience : (asList (payload.field "aud")).any (fun v => Json.isStr v c.clientId) = true
  azp : 1 < (asList (payload.field "aud")).length → (payload.field "azp").isSome = true →
    Json.isStr (payload.field "azp") c.clientId = true
  exp : notFrom (payload.field "exp") ((c.now / 1000 : Int) - 60) = false
  iat : isAfter (payload.field "iat") ((c.now / 1000 : Int) + 300) = false
  nonce : Json.isStr (payload.field "nonce") c.nonce = true
  domain : c.allowDomain ≠ "" → Json.isStr (payload.field "hd") c.allowDomain = true ∨
    ofDomain P payload c.allowDomain = true ∧ isFalse (payload.field "email_verified") = false
  group : c.allowGroup ≠ "" → hasStr (payload.field "groups") c.allowGroup = true

theorem checkClaims_ok {p payload : Json} {c : Claims} (h : checkClaims P p c = .ok payload) :
    p = payload ∧ Accepted P payload c := by
  simp only [checkClaims, bind_ok, exists_unit, refuse_ok] at h
  obtain ⟨-, hiss, haud, hazp, hexp, hiat, hnonce, hdomain, hgroup, hp⟩ := h
  cases hp
  refine ⟨rfl, ?_, ?_, ?_, ?_, ?_, ?_, ?_, ?_⟩
  · simpa using hiss
  · simpa using haud
  · intro hmany hsome
    by_contra hno
    exact hazp ⟨hmany, hsome, hno⟩
  · simpa using hexp
  · simpa using hiat
  · simpa using hnonce
  · intro hd
    by_contra hno
    rw [not_or] at hno
    refine hdomain ⟨hd, ?_, hno.1⟩
    rintro ⟨hof, hverified⟩
    exact hno.2 ⟨hof, by simpa using hverified⟩
  · intro hg
    by_contra hno
    exact hgroup ⟨hg, hno⟩

/-- The text is that of the token, is signed with the key, and says this. -/
def SignedBy (P : Platform) (jwt : String) (jwk said : Json) (text : String) : Prop :=
  ∃ head body sig alg, parts jwt = [head, body, sig] ∧ text = head ++ "." ++ body ∧ P.verify jwk alg text sig = .ok true ∧
    P.decode body = .ok said

theorem verifyJws_ok {jwt : String} {jwk payload : Json} (h : verifyJws P jwt jwk = .ok payload) :
    ∃ text, SignedBy P jwt jwk payload text := by
  rw [verifyJws] at h
  split at h
  · rename_i head body sig hparts
    simp only [bind_ok, exists_unit, refuse_ok] at h
    obtain ⟨header, -, -, a, -, good, hgood, htrue, hbody⟩ := h
    rw [Bool.not_eq_false] at htrue
    rw [htrue] at hgood
    exact ⟨_, head, body, sig, a, hparts, rfl, hgood, hbody⟩
  · cases h

namespace Provider

theorem firstGood_ok {jwt : String} {ks : List Json} {last : Option String} {payload : Json}
    (h : firstGood P jwt ks last = .ok payload) : ∃ k ∈ ks, verifyJws P jwt k = .ok payload := by
  induction ks generalizing last with
  | nil => cases h
  | cons k ks ih =>
      rw [firstGood] at h
      split at h
      · rename_i hk
        cases h
        exact ⟨k, List.mem_cons_self, hk⟩
      · obtain ⟨k', hmem, hk'⟩ := ih h
        exact ⟨k', List.mem_cons_of_mem _ hmem, hk'⟩

/-- The keys in a value. -/
def elements : Json → List Json
  | .arr xs => xs
  | _ => []

theorem pick_ok {ks header : Json} {l : List Json} (h : pick P ks header = .ok l) : ∀ k ∈ l, k ∈ elements ks := by
  cases ks with
  | arr xs =>
      simp only [pick, bind_ok, exists_unit] at h
      obtain ⟨-, -, hl⟩ := h
      cases hl
      exact fun k hk => (List.mem_filter.mp hk).1
  | _ => cases h

/-- The keys the provider gives out on a visit. -/
def published (P : Platform) (v : Visit) : List Json :=
  match keysOf P v.keysAnswer with
  | .ok ks => elements ks
  | .error _ => []

theorem discovery_keys (v : Visit) : (p.discovery P c v).2.keys = p.keys := by
  rw [discovery]
  split
  · rfl
  · split <;> rfl

/-- The keys in use are those kept or those given out now, and so are the keys kept from then on. -/
theorem jwks_keys (P : Platform) (c : Client) (p : Provider) (force : Bool) (v : Visit) :
    (∀ ks, (p.jwks P c force v).1 = .ok ks → ∀ k ∈ elements ks, k ∈ elements p.keys ∨ k ∈ published P v) ∧
      ∀ k ∈ elements (p.jwks P c force v).2.keys, k ∈ elements p.keys ∨ k ∈ published P v := by
  rw [jwks]
  by_cases hkept : Json.truthy (some p.keys) ∧ v.keysAsked < p.keysAt + (if force then 60000 else 3600000)
  · rw [if_pos hkept]
    constructor
    · intro ks hks k hk
      cases hks
      exact .inl hk
    · exact fun k hk => .inl hk
  rw [if_neg hkept]
  have hsame := discovery_keys (P := P) (c := c) (p := p) v
  cases hd : p.discovery P c v with
  | mk r p' =>
      rw [hd] at hsame
      have hold : ∀ k ∈ elements p'.keys, k ∈ elements p.keys ∨ k ∈ published P v := by
        intro k hk
        rw [hsame] at hk
        exact .inl hk
      cases r with
      | error e => exact ⟨fun ks hks => (nomatch hks), hold⟩
      | ok m =>
          dsimp only
          cases hks : keysOf P v.keysAnswer with
          | error e => exact ⟨fun ks hks => (nomatch hks), hold⟩
          | ok ks =>
              have hnew : ∀ k ∈ elements ks, k ∈ published P v := by
                intro k hk
                rw [published, hks]
                exact hk
              constructor
              · intro ks' hks' k hk
                cases hks'
                exact .inr (hnew k hk)
              · exact fun k hk => .inr (hnew k hk)

/-- The key is kept, or given out in this sign-in. -/
def Known (P : Platform) (p : Provider) (t : Talk) (k : Json) : Prop :=
  k ∈ elements p.keys ∨ k ∈ published P t.first ∨ k ∈ published P t.second

/-- A payload is verified under a known key, and only known keys are kept. -/
theorem verified_ok (P : Platform) (c : Client) (p : Provider) (jwt : String) (header : Json) (t : Talk) :
    (∀ payload, (p.verified P c jwt header t).1 = .ok payload → ∃ k, Known P p t k ∧ verifyJws P jwt k = .ok payload) ∧
      ∀ k ∈ elements (p.verified P c jwt header t).2.keys, Known P p t k := by
  obtain ⟨huse, hkeep⟩ := jwks_keys P c p false t.first
  rw [verified]
  cases hj : p.jwks P c false t.first with
  | mk ks p₁ =>
      rw [hj] at huse hkeep
      have hold : ∀ k ∈ elements p₁.keys, Known P p t k := fun k hk => (hkeep k hk).imp id .inl
      dsimp only
      cases hp : ks >>= (pick P · header) with
      | error e => exact ⟨fun payload h => (nomatch h), hold⟩
      | ok l =>
          dsimp only
          obtain ⟨ks', rfl, hpick⟩ := bind_ok.mp hp
          cases hg : firstGood P jwt l none with
          | ok payload =>
              refine ⟨?_, hold⟩
              intro payload' h
              cases h
              obtain ⟨k, hk, hgood⟩ := firstGood_ok hg
              exact ⟨k, (huse _ rfl k (pick_ok hpick k hk)).imp id .inl, hgood⟩
          | error last =>
              obtain ⟨huse', hkeep'⟩ := jwks_keys P c p₁ true t.second
              have known : ∀ {k}, k ∈ elements p₁.keys ∨ k ∈ published P t.second → Known P p t k := by
                rintro k (hk | hk)
                · exact hold k hk
                · exact .inr (.inr hk)
              dsimp only
              cases hj' : p₁.jwks P c true t.second with
              | mk ks' p₂ =>
                  rw [hj'] at huse' hkeep'
                  have hold' : ∀ k ∈ elements p₂.keys, Known P p t k := fun k hk => known (hkeep' k hk)
                  dsimp only
                  cases hp' : ks' >>= (pick P · header) with
                  | error e => exact ⟨fun payload h => (nomatch h), hold'⟩
                  | ok l' =>
                      dsimp only
                      obtain ⟨ks'', rfl, hpick'⟩ := bind_ok.mp hp'
                      cases hg' : firstGood P jwt l' last with
                      | ok payload =>
                          refine ⟨?_, hold'⟩
                          intro payload' h
                          cases h
                          obtain ⟨k, hk, hgood⟩ := firstGood_ok hg'
                          exact ⟨k, known (huse' _ rfl k (pick_ok hpick' k hk)), hgood⟩
                      | error last' => exact ⟨fun payload h => (nomatch h), hold'⟩

/-- What is redeemed: an id_token under a known key, with claims that are accepted. -/
theorem redeem_ok (P : Platform) (c : Client) (p : Provider) (t : Talk) {nonce allowDomain allowGroup : String} :
    (∀ payload, (p.redeem P c t nonce allowDomain allowGroup).1 = .ok payload →
      ∃ jwt k, idToken P t.token = .ok jwt ∧ Known P p t k ∧ verifyJws P jwt k = .ok payload ∧
        Accepted P payload ⟨c.issuer, c.clientId, nonce, t.checked, allowDomain, allowGroup⟩) ∧
      ∀ k ∈ elements (p.redeem P c t nonce allowDomain allowGroup).2.keys, Known P p t k := by
  have hsame := discovery_keys (P := P) (c := c) (p := p) t.opening
  rw [redeem]
  cases hd : p.discovery P c t.opening with
  | mk r p₁ =>
      rw [hd] at hsame
      have known : ∀ {k}, Known P p₁ t k → Known P p t k := by
        rintro k (hk | hk)
        · rw [hsame] at hk
          exact .inl hk
        · exact .inr hk
      cases r with
      | error e => exact ⟨fun payload h => (nomatch h), fun k hk => known (.inl hk)⟩
      | ok m =>
          dsimp only
          cases ht : tokenHeader P m t.token with
          | error e => exact ⟨fun payload h => (nomatch h), fun k hk => known (.inl hk)⟩
          | ok got =>
              obtain ⟨jwt, header⟩ := got
              have hjwt : idToken P t.token = .ok jwt := by
                simp only [tokenHeader, bind_ok, exists_unit] at ht
                obtain ⟨-, token, htoken, header', -, hpair⟩ := ht
                cases hpair
                exact htoken
              obtain ⟨hgood, hkeep⟩ := verified_ok P c p₁ jwt header t
              dsimp only
              cases hv : p₁.verified P c jwt header t with
              | mk r p₂ =>
                  rw [hv] at hgood hkeep
                  cases r with
                  | error e => exact ⟨fun payload h => (nomatch h), fun k hk => known (hkeep k hk)⟩
                  | ok said =>
                      refine ⟨?_, fun k hk => known (hkeep k hk)⟩
                      intro payload h
                      obtain ⟨rfl, haccepted⟩ := checkClaims_ok h
                      obtain ⟨k, hk, hverify⟩ := hgood _ rfl
                      exact ⟨jwt, k, hjwt, known hk, hverify, haccepted⟩

end Provider

end

end EncedoChat.Enroll.Oidc
