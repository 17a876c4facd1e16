import EncedoChat.Enroll.Admission
import EncedoChat.Enroll.Provider

/-!
# Who is admitted by sign-in

The service with its provider. The token endpoint may answer anything; what a key of the provider's verifies was signed
with that key, and what the provider signs it means.
-/

namespace EncedoChat.Enroll

open Oidc (Visit Talk Provider)

namespace State

variable {C : Config} {P : Platform} {s : State}

/-- A sign-in that succeeds was redeemed, and only then the list grows. -/
theorem enrollOidc_redeemed {body : Json} {ip : String} {who : SignIn → Redeem → Except String Json} {t : Clock}
    (h : (s.enrollOidc C P body ip who t).2.any (fun a => a.status = 200) = true ∨
      listed (s.enrollOidc C P body ip who t).1.list ≠ listed s.list) :
    ∃ o r payload label, C.oidc = some o ∧ Signed C P s body t r ∧ who o r = .ok payload ∧
      (s.enrollOidc C P body ip who t).1.list = addToList P.toWriting s.list r.peerId label t.noted := by
  have hasks : Asks C P s body t (s.askOidc C P body ip t) := asks
  rw [enrollOidc] at h ⊢
  cases hask : s.askOidc C P body ip t with
  | mk s' got =>
      rw [hask] at hasks h
      cases hasks with
      | refused _ hno =>
          rcases h with h | h
          · exact absurd (hno.symm.trans h) (by simp)
          · exact absurd rfl h
      | swept =>
          rcases h with h | h
          · exact absurd h (by simp [Answer.challenge])
          · exact absurd rfl h
      | unsigned _ _ =>
          rcases h with h | h
          · exact absurd h (by simp [Answer.signature])
          · exact absurd rfl h
      | @redeems o r ho hsigned =>
          dsimp only at h ⊢
          unfold tellOidc at h ⊢
          cases hwho : who o r with
          | error why =>
              rw [hwho] at h
              rcases h with h | h
              · exact absurd h (by simp [Answer.refusedSignIn])
              · exact absurd rfl h
          | ok payload =>
              rw [hwho] at h
              dsimp only at h ⊢
              split at h
              · exact ⟨o, r, payload, _, ho, hsigned, hwho, rfl⟩
              · rcases h with h | h
                · exact absurd h (by simp)
                · exact absurd rfl h

end State

structure Company where
  enrol : World
  provider : Provider
  /-- the keys the provider gave out -/
  published : List Json
  /-- what was signed with them -/
  tokens : List (Json × String)

inductive Request where
  | challenge (kind nonce : String) (visit : Visit) (t : Clock)
  | enroll (body : Json) (ip : String) (t : Clock)
  | signIn (body : Json) (ip : String) (talk : Talk) (t : Clock)
  | status (body : Json) (t : Clock)
  | unlock
  | sign (key : Bytes) (text : String)
  /-- the provider signs a token -/
  | issue (key : Json) (text : String)

/-- The keys given out in a sign-in. -/
def given (O : Oidc.Platform) (talk : Talk) : List Json :=
  Provider.published O talk.first ++ Provider.published O talk.second

namespace Company

variable (C : Config) (P : Platform) (O : Oidc.Platform) (issuer : String)

def client : Oidc.Client := ⟨issuer, (C.oidc.map SignIn.clientId).getD ""⟩

def start (d : Disk) : Company := ⟨World.start d, .empty, [], []⟩

/-- `oidc.provider.redeem`, for what the device asks. -/
def redeem (w : Company) (talk : Talk) (o : SignIn) (r : State.Redeem) : Except String Json × Provider :=
  w.provider.redeem O (client C issuer) talk (Oidc.oidcNonce O C.networkId r.nonce r.peerId) o.allowDomain o.allowGroup

/-- What the service does. -/
def action (w : Company) : Request → Option Action
  | .challenge kind nonce visit t =>
    some (.challenge kind nonce
      ((w.provider.discovery O (client C issuer) visit).1.map (fun m => m.field "authorization_endpoint")) t)
  | .enroll body ip t => some (.enroll body ip t)
  | .signIn body ip talk t => some (.enrollOidc body ip (fun o r => (w.redeem C O issuer talk o r).1) t)
  | .status body t => some (.status body t)
  | .unlock => some .unlock
  | .sign key text => some (.sign key text)
  | .issue _ _ => none

/-- What the service keeps of the provider. -/
def kept (w : Company) : Request → Provider
  | .challenge kind _ visit _ =>
    if kind = "oidc" ∧ C.oidc.isSome then (w.provider.discovery O (client C issuer) visit).2 else w.provider
  | .signIn body ip talk t =>
    match w.enrol.state.askOidc C P body ip t with
    | (_, .ok (o, r)) => (w.redeem C O issuer talk o r).2
    | _ => w.provider
  | _ => w.provider

def act (w : Company) (q : Request) : Company where
  enrol := ((w.action C O issuer q).map (w.enrol.act C P)).getD w.enrol
  provider := w.kept C P O issuer q
  published :=
    match q with
    | .signIn _ _ talk _ => given O talk ++ w.published
    | _ => w.published
  tokens :=
    match q with
    | .issue key text => (key, text) :: w.tokens
    | _ => w.tokens

/-- As for the service, and what a key verifies in an id_token was signed with it. -/
structure Fair (w : Company) (q : Request) : Prop where
  enrol : ∀ a, w.action C O issuer q = some a → World.Fair C P w.enrol a
  ideal : ∀ body ip talk t jwt head said sig key alg, q = .signIn body ip talk t →
    Provider.idToken O talk.token = .ok jwt → Oidc.parts jwt = [head, said, sig] →
    O.verify key alg (head ++ "." ++ said) sig = .ok true → (key, head ++ "." ++ said) ∈ w.tokens

def isTrue (v : Option Json) : Bool :=
  match v with
  | some (.bool true) => true
  | _ => false

theorem isTrue_iff {v : Option Json} : isTrue v = true ↔ v = some (.bool true) := by
  unfold isTrue
  split <;> simp_all

/-- What admits a device by sign-in in the state `w`. -/
structure SignedIn (w : Company) (body : Json) (talk : Talk) (t : Clock) (o : SignIn) (r : State.Redeem) (jwt : String)
    (key payload : Json) : Prop where
  oidc : C.oidc = some o
  ofPeer : Json.asStr (body.field "peerId") = some r.peerId
  toNonce : Json.asStr (body.field "nonce") = some r.nonce
  /-- the challenge was given out, is still good and not used up -/
  issued : ∃ e ∈ w.enrol.history, ∃ exp, e.issues C = some (r.nonce, exp) ∧ t.swept ≤ exp
  unspent : r.nonce ∉ spent w.enrol.history
  /-- the device signed with the key of the PeerId -/
  signed : ∃ key, ed25519OfPeerId r.peerId = some key ∧
    (key, enrollMessage C.networkId r.nonce ("oidc:" ++ r.code)) ∈ w.enrol.signed
  /-- the token is the provider's, signed with a key it gave out -/
  token : Provider.idToken O talk.token = .ok jwt
  published : key ∈ given O talk ++ w.published
  byKey : ∃ text, Oidc.SignedBy O jwt key payload text ∧ (key, text) ∈ w.tokens
  /-- issuer, audience, times, the nonce of this challenge and PeerId, and the group -/
  accepted : Oidc.Accepted O payload ⟨issuer, o.clientId, Oidc.oidcNonce O C.networkId r.nonce r.peerId, talk.checked,
    o.allowDomain, o.allowGroup⟩
  domain : o.allowDomain ≠ "" → Json.isStr (payload.field "hd") o.allowDomain = true ∨
    Oidc.ofDomain O payload o.allowDomain = true ∧ isTrue (payload.field "email_verified") = true

/-- Where the e-mail's domain decides, the token says whether the e-mail is verified. -/
def Stated (talk : Talk) : Prop :=
  ∀ o jwt head said sig payload, C.oidc = some o → o.allowDomain ≠ "" → Provider.idToken O talk.token = .ok jwt →
    Oidc.parts jwt = [head, said, sig] → O.decode said = .ok payload →
    Json.isStr (payload.field "hd") o.allowDomain = false → Oidc.ofDomain O payload o.allowDomain = true →
    ∃ b, payload.field "email_verified" = some (.bool b)

/-- The device is admitted or comes onto the list. -/
def Admits (w : Company) (body : Json) (ip : String) (talk : Talk) (t : Clock) : Prop :=
  let r := w.enrol.state.enrollOidc C P body ip (fun o r => (w.redeem C O issuer talk o r).1) t
  r.2.any (fun a => a.status = 200) = true ∨ listed r.1.list ≠ listed w.enrol.state.list

section
variable {C : Config} {P : Platform} {O : Oidc.Platform} {issuer : String} {d : Disk} {w : Company}

/-- The service sees a run of its own. -/
theorem reach_enrol (h : Reach (act C P O issuer) (Fair C P O issuer) (start d) w) :
    Reach (World.act C P) (World.Fair C P) (World.start d) w.enrol := by
  induction h with
  | start => exact .start
  | @step w q _ hok ih =>
      show Reach _ _ _ (((w.action C O issuer q).map (w.enrol.act C P)).getD w.enrol)
      cases hq : w.action C O issuer q with
      | none => exact ih
      | some a => exact .step a ih (hok.enrol a hq)

/-- Only keys that were given out are kept. -/
theorem kept_published (h : Reach (act C P O issuer) (Fair C P O issuer) (start d) w) :
    ∀ k ∈ Provider.elements w.provider.keys, k ∈ w.published := by
  induction h with
  | start => exact fun k hk => (nomatch hk)
  | @step w q _ hok ih =>
      cases q with
      | challenge kind nonce visit t =>
          intro k hk
          apply ih k
          have hkeys : (w.kept C P O issuer (.challenge kind nonce visit t)).keys = w.provider.keys := by
            rw [kept]
            split
            · exact Provider.discovery_keys visit
            · rfl
          exact hkeys ▸ hk
      | signIn body ip talk t =>
          have older : ∀ k ∈ Provider.elements w.provider.keys, k ∈ given O talk ++ w.published :=
            fun k hk => List.mem_append_right _ (ih k hk)
          show ∀ k ∈ Provider.elements (w.kept C P O issuer (.signIn body ip talk t)).keys, k ∈ given O talk ++ w.published
          rw [kept]
          split
          · rename_i s' o r _
            intro k hk
            rcases (Provider.redeem_ok O (client C issuer) w.provider talk).2 k hk with hk | hk
            · exact older k hk
            · exact List.mem_append_left _ (List.mem_append.mpr hk)
          · exact older
      | enroll body ip t => exact ih
      | status body t => exact ih
      | unlock => exact ih
      | sign key text => exact ih
      | issue key text => exact ih

/-- A token whose claims are accepted is of the company wherever it says whether the e-mail is verified. -/
theorem domain_of_stated {talk : Talk} {o : SignIn} {jwt : String} {key payload : Json} {text nonce : String}
    (hstated : Stated C O talk) (ho : C.oidc = some o) (htoken : Provider.idToken O talk.token = .ok jwt)
    (hby : Oidc.SignedBy O jwt key payload text)
    (hacc : Oidc.Accepted O payload ⟨issuer, o.clientId, nonce, talk.checked, o.allowDomain, o.allowGroup⟩)
    (hdomain : o.allowDomain ≠ "") :
    Json.isStr (payload.field "hd") o.allowDomain = true ∨
      Oidc.ofDomain O payload o.allowDomain = true ∧ isTrue (payload.field "email_verified") = true := by
  rcases hacc.domain hdomain with hhd | ⟨hof, hverified⟩
  · exact .inl hhd
  · obtain ⟨head, said, sig, -, hparts, -, -, hdecode⟩ := hby
    by_cases hhd : Json.isStr (payload.field "hd") o.allowDomain = true
    · exact .inl hhd
    · obtain ⟨b, hb⟩ :=
        hstated o jwt head said sig payload ho hdomain htoken hparts hdecode (eq_false_of_ne_true hhd) hof
      rw [hb] at hverified ⊢
      cases b with
      | false => simp [Oidc.isFalse] at hverified
      | true => exact .inr ⟨hof, rfl⟩

/-- In every run, a device is admitted by sign-in as it should be exactly if the token it brings says whether the
e-mail is verified, where the e-mail's domain decides. All the rest holds of every token. -/
theorem by_sign_in (h : Reach (act C P O issuer) (Fair C P O issuer) (start d) w) (body : Json) (ip : String) (talk : Talk)
    (t : Clock) (hok : Fair C P O issuer w (.signIn body ip talk t)) (hadm : Admits C P O issuer w body ip talk t) :
    (∃ o r jwt key payload, SignedIn C O issuer w body talk t o r jwt key payload ∧
      listed (w.act C P O issuer (.signIn body ip talk t)).enrol.state.list =
        if r.peerId ∈ listed w.enrol.state.list then listed w.enrol.state.list
        else listed w.enrol.state.list ++ [r.peerId]) ↔ Stated C O talk := by
  have hi := World.Inv.reach (reach_enrol h)
  obtain ⟨o, r, payload, label, ho, hsigned, hwho, hlist⟩ := State.enrollOidc_redeemed hadm
  obtain ⟨jwt, key, htoken, hknown, hverify, hacc⟩ :=
    (Provider.redeem_ok O (client C issuer) w.provider talk).1 payload hwho
  obtain ⟨text, hby⟩ := Oidc.verifyJws_ok hverify
  have hclient : client C issuer = ⟨issuer, o.clientId⟩ := by rw [client, ho]; rfl
  rw [hclient] at hacc
  constructor
  · rintro ⟨o', r', jwt', key', payload', hin, -⟩ o'' jwt'' head said sig said' ho'' hdomain htoken'' hparts hdecode hhd
      hof
    have hoo : o' = o'' := Option.some.inj (hin.oidc.symm.trans ho'')
    subst hoo
    have hjwt : jwt' = jwt'' := Except.ok.inj (hin.token.symm.trans htoken'')
    subst hjwt
    obtain ⟨text', hby', -⟩ := hin.byKey
    obtain ⟨head', said'', sig', -, hparts', -, -, hdecode'⟩ := hby'
    have hsame : said = said'' := by
      rw [hparts] at hparts'
      cases hparts'
      rfl
    have hpayload : said' = payload' := Except.ok.inj (hdecode.symm.trans (hsame ▸ hdecode'))
    subst hpayload
    rcases hin.domain hdomain with hhd' | ⟨-, htrue⟩
    · exact absurd (hhd.symm.trans hhd') (by simp)
    · exact ⟨true, isTrue_iff.mp htrue⟩
  · intro hstated
    obtain ⟨exp, hexp⟩ := Option.isSome_iff_exists.mp hsigned.had
    obtain ⟨hget, hgood⟩ := State.get_sweep.mp hexp
    obtain ⟨e, he, hissue⟩ := hi.challenges.known r.nonce exp hget
    obtain ⟨sig, hsig, hsignature⟩ := hsigned.signed
    obtain ⟨head, said, sig', alg, hparts, htext, hverified, -⟩ := id hby
    have hpeer := World.signed_of_signedBy (hok.enrol _ rfl) rfl hsig hsignature
    have hpub : key ∈ given O talk ++ w.published := by
      rcases hknown with hold | hnew
      · exact List.mem_append_right _ (kept_published h key hold)
      · exact List.mem_append_left _ (List.mem_append.mpr hnew)
    refine ⟨o, r, jwt, key, payload, ⟨ho, hsigned.ofPeer, hsigned.toNonce, ⟨e, he, exp, hissue, hgood⟩,
      hi.challenges.unspent r.nonce exp hget, hpeer, htoken, hpub, ⟨text, hby, ?_⟩, hacc,
      domain_of_stated hstated ho htoken hby hacc⟩, ?_⟩
    · rw [htext] at hverified ⊢
      exact hok.ideal body ip talk t jwt head said sig' key alg rfl htoken hparts hverified
    · obtain ⟨pub, hkey, -⟩ := hpeer
      have hlist' : (w.act C P O issuer (.signIn body ip talk t)).enrol.state.list =
          addToList P.toWriting w.enrol.state.list r.peerId label t.noted := hlist
      rw [hlist', listed_addToList _ (isPeerId_of_key hkey)]

end

/-! ## An e-mail nobody says is verified -/

def sampleNetwork : Config :=
  ⟨"net", none, some ⟨"a", "https://a.co/", "openid email", "a.co", "", .none⟩⟩

def sampleSig : String := "LIqCs4GzHfP5/hXU8vJOTFGtB25aryElWUYWU5Ssp3AuXrD5yIyxNNVhSMp37sPR6+oNCEuSSqbaHBq0Z3yVCg=="

def sampleDevice : Platform :=
  { World.samplePlatform with
    verify := fun key text sig =>
      key = World.sampleKey && text = enrollMessage "net" "n1" "oidc:c" && sig = sampleSig }

def sampleJwk : Json :=
  .obj [("crv", .str "Ed25519"), ("x", .str "eybXMvpJpNXSpTbA1S1EpyjfZfKW-vTxppSYV6imOTQ"), ("kty", .str "OKP")]

def isSampleJwk : Json → Bool
  | .obj [("crv", .str "Ed25519"), ("x", .str "eybXMvpJpNXSpTbA1S1EpyjfZfKW-vTxppSYV6imOTQ"), ("kty", .str "OKP")] => true
  | _ => false

/-- The e-mail is said to be verified, or nothing is said of it. -/
def sampleClaims (verified : Bool) : Json :=
  .obj ([("iss", .str "https://a.co"), ("aud", .str "a"), ("exp", .num 359),
    ("nonce", .str "YW_2v9NTACgbwYweyY7vX4TsEZvysp71rJE6_fdQ2C0"), ("email", .str "e@a.co")] ++
    if verified then [("email_verified", .bool true)] else [])

def sampleHead : String := "eyJhbGciOiJFZERTQSJ9"

def sampleSaid (verified : Bool) : String :=
  if verified then
    "eyJpc3MiOiJodHRwczovL2EuY28iLCJhdWQiOiJhIiwiZXhwIjozNTksIm5vbmNlIjoiWVdfMnY5TlRBQ2did1l3ZXlZN3ZYNFRzRVp2eXNwNzFy" ++
      "SkU2X2ZkUTJDMCIsImVtYWlsIjoiZUBhLmNvIiwiZW1haWxfdmVyaWZpZWQiOnRydWV9"
  else
    "eyJpc3MiOiJodHRwczovL2EuY28iLCJhdWQiOiJhIiwiZXhwIjozNTksIm5vbmNlIjoiWVdfMnY5TlRBQ2did1l3ZXlZN3ZYNFRzRVp2eXNwNzFy" ++
      "SkU2X2ZkUTJDMCIsImVtYWlsIjoiZUBhLmNvIn0"

def sampleTokenSig (verified : Bool) : String :=
  if verified then "2mLicHS5HycA6iI10DHpCQJ6oI-rvIGV1eHiNrxuzhPkbpgXEkIMF6bTfXecjDKv8qYsZ3wRFbA73glZ4szMCw"
  else "hgX4URJTOkvLccdppgNlPlcFg6bsK8vdWPPx1gyBmcFdYHyorJFg1wyXXw57OFWScuyAp3ydsmujrWKJ5rDqAg"

def sampleText (verified : Bool) : String := sampleHead ++ "." ++ sampleSaid verified

def sampleToken (verified : Bool) : String := sampleText verified ++ "." ++ sampleTokenSig verified

def sampleOidc : Oidc.Platform where
  decode s :=
    if s = sampleHead then .ok (.obj [("alg", .str "EdDSA")])
    else if s = sampleSaid false then .ok (sampleClaims false)
    else if s = sampleSaid true then .ok (sampleClaims true)
    else .error "no JSON"
  verify key _ text sig :=
    .ok (isSampleJwk key && (text = sampleText false && sig = sampleTokenSig false ||
      text = sampleText true && sig = sampleTokenSig true))
  digest s :=
    if s = "onchato-oidc-v1\nnet\nn1\n" ++ World.samplePeer then "YW_2v9NTACgbwYweyY7vX4TsEZvysp71rJE6_fdQ2C0" else ""
  lower s := String.ofList (s.toList.map Char.toLower)
  numText _ := ""
  typeError := "TypeError"

def sampleIssuer : String := "https://a.co"

def sampleVisit : Visit where
  keysAsked := 59000
  metaAsked := 59000
  metaAnswer := .ok ⟨true, 200, .ok (.obj [("issuer", .str sampleIssuer)])⟩
  metaNoted := 59000
  keysAnswer := .ok ⟨true, 200, .ok (.obj [("keys", .arr [sampleJwk])])⟩
  keysNoted := 59000

def sampleTalk (verified : Bool) : Talk where
  opening := sampleVisit
  token := .ok ⟨true, 200, .ok (.obj [("id_token", .str (sampleToken verified))])⟩
  first := sampleVisit
  second := sampleVisit
  checked := 59000

def sampleSignIn : Json :=
  .obj [("peerId", .str World.samplePeer), ("nonce", .str "n1"), ("code", .str "c"), ("verifier", .str "v"),
    ("sig", .str sampleSig)]

/-- Both tokens are signed, the device signs, and a challenge is given out. -/
def sampleRequests : List Request :=
  [.issue sampleJwk (sampleText false), .issue sampleJwk (sampleText true),
    .sign World.sampleKey (enrollMessage "net" "n1" "oidc:c"), .challenge "oidc" "n1" sampleVisit World.sampleClock]

def sampleAct : Company → Request → Company := act sampleNetwork sampleDevice sampleOidc sampleIssuer

def sampleFair : Company → Request → Prop := Fair sampleNetwork sampleDevice sampleOidc sampleIssuer

def sampleStart : Company := start World.sampleDisk

def sampleCompany : Company := sampleRequests.foldl sampleAct sampleStart

theorem fair_of_action {w : Company} {q : Request} (hq : ∀ body ip talk t, q ≠ .signIn body ip talk t)
    (h : ∀ a, w.action sampleNetwork sampleOidc sampleIssuer q = some a → World.Fair sampleNetwork sampleDevice w.enrol a) :
    sampleFair w q :=
  ⟨h, fun body ip talk t _ _ _ _ _ _ heq => absurd heq (hq body ip talk t)⟩

theorem sampleCompany_reached : Reach sampleAct sampleFair sampleStart sampleCompany := by
  refine .step _ (.step _ (.step _ (.step _ .start ?_) ?_) ?_) ?_
  · exact fair_of_action (by simp) (fun a ha => nomatch ha)
  · exact fair_of_action (by simp) (fun a ha => nomatch ha)
  · refine fair_of_action (by simp) ?_
    rintro a ⟨⟩
    exact ⟨fun t ht => (nomatch ht), fun n exp ans hi => (nomatch hi), fun body sig key text hb => (nomatch hb)⟩
  · refine fair_of_action (by simp) ?_
    rintro a ⟨⟩
    refine ⟨?_, ?_, fun body sig key text hb => (nomatch hb)⟩
    · rintro t ⟨⟩
      exact Nat.zero_le _
    · intro n exp ans _ e he exp' hi
      cases List.mem_singleton.mp he
      cases hi

theorem eq_sampleJwk {key : Json} (h : isSampleJwk key = true) : key = sampleJwk := by
  unfold isSampleJwk at h
  split at h
  · rfl
  · cases h

theorem sample_fair (verified : Bool) :
    sampleFair sampleCompany (.signIn sampleSignIn "10.0.0.1" (sampleTalk verified) World.sampleClock) := by
  constructor
  · rintro a ⟨⟩
    refine ⟨?_, fun n exp ans hi => (nomatch hi), ?_⟩
    · rintro t ⟨⟩
      decide
    · intro body sig key text _ _ hverify
      simp only [sampleDevice, Bool.and_eq_true, decide_eq_true_eq] at hverify
      rw [hverify.1.1, hverify.1.2]
      exact List.mem_cons_self
  · intro body ip talk t jwt head said sig key alg _ _ _ hverify
    have hgood := Except.ok.inj hverify
    simp only [Bool.and_eq_true, Bool.or_eq_true, decide_eq_true_eq] at hgood
    obtain ⟨hkey, htext⟩ := hgood
    rw [eq_sampleJwk hkey]
    rcases htext with ⟨htext, -⟩ | ⟨htext, -⟩
    · rw [htext]
      exact List.mem_cons_of_mem _ List.mem_cons_self
    · rw [htext]
      exact List.mem_cons_self

theorem dotless_append {a b : String} (ha : '.' ∉ a.toList) (hb : '.' ∉ b.toList) : '.' ∉ (a ++ b).toList := by
  simp [ha, hb]

theorem sample_parts (verified : Bool) :
    Oidc.parts (sampleToken verified) = [sampleHead, sampleSaid verified, sampleTokenSig verified] := by
  apply Oidc.parts_three
  · decide
  · cases verified
    · exact dotless_append (by decide +kernel) (by decide +kernel)
    · exact dotless_append (by decide +kernel) (by decide)
  · cases verified <;> decide

theorem sample_decode_eq (s : String) : sampleOidc.decode s =
    if s = sampleHead then .ok (.obj [("alg", .str "EdDSA")])
    else if s = sampleSaid false then .ok (sampleClaims false)
    else if s = sampleSaid true then .ok (sampleClaims true)
    else .error "no JSON" := rfl

theorem sampleSaid_ne_head (verified : Bool) : sampleSaid verified ≠ sampleHead := by
  cases verified <;> decide

theorem sampleSaid_ne : sampleSaid true ≠ sampleSaid false := by decide +kernel

theorem sample_decode (verified : Bool) : sampleOidc.decode (sampleSaid verified) = .ok (sampleClaims verified) := by
  rw [sample_decode_eq, if_neg (sampleSaid_ne_head verified)]
  cases verified with
  | false => rw [if_pos rfl]
  | true => rw [if_neg sampleSaid_ne, if_pos rfl]

theorem sample_verify (verified : Bool) :
    Oidc.verifyJws sampleOidc (sampleToken verified) sampleJwk = .ok (sampleClaims verified) := by
  have hgood : ∀ a, sampleOidc.verify sampleJwk a (sampleHead ++ "." ++ sampleSaid verified) (sampleTokenSig verified) =
      .ok true := by
    intro a
    cases verified <;> simp [sampleOidc, sampleText, isSampleJwk, sampleJwk]
  rw [Oidc.verifyJws, sample_parts]
  simp only [bind_ok, exists_unit, refuse_ok]
  exact ⟨_, by rw [sample_decode_eq, if_pos rfl], by simp [Json.isNull], _, rfl, true, hgood _, by simp, sample_decode verified⟩

theorem sample_claims (verified : Bool) :
    Oidc.checkClaims sampleOidc (sampleClaims verified) ⟨"https://a.co", "a",
      Oidc.oidcNonce sampleOidc "net" "n1" World.samplePeer, 59000, "a.co", ""⟩ = .ok (sampleClaims verified) := by
  have hsome : (Oidc.checkClaims sampleOidc (sampleClaims verified) ⟨"https://a.co", "a",
      Oidc.oidcNonce sampleOidc "net" "n1" World.samplePeer, 59000, "a.co", ""⟩).toOption.isSome = true := by
    cases verified <;> decide
  cases hc : Oidc.checkClaims sampleOidc (sampleClaims verified) ⟨"https://a.co", "a",
      Oidc.oidcNonce sampleOidc "net" "n1" World.samplePeer, 59000, "a.co", ""⟩ with
  | error e =>
      rw [hc] at hsome
      cases hsome
  | ok said => rw [(Oidc.checkClaims_ok hc).1]

def sampleRedeem : State.Redeem := ⟨World.samplePeer, "n1", "c", "v"⟩

def sampleDoc : Json := .obj [("issuer", .str sampleIssuer)]

def sampleHeader : Json := .obj [("alg", .str "EdDSA")]

/-- What is kept after the challenge. -/
def sampleProvider : Provider := ⟨sampleDoc, 59000, .null, 0⟩

theorem sample_tokenHeader (verified : Bool) :
    Provider.tokenHeader sampleOidc sampleDoc (sampleTalk verified).token = .ok (sampleToken verified, sampleHeader) := by
  simp only [Provider.tokenHeader, bind_ok, exists_unit, refuse_ok]
  refine ⟨by decide, sampleToken verified, rfl, sampleHeader, ?_, rfl⟩
  rw [sample_parts, List.headD_cons, sample_decode_eq, if_pos rfl]
  rfl

theorem sample_jwks : sampleProvider.jwks sampleOidc (client sampleNetwork sampleIssuer) false sampleVisit =
    (.ok (.arr [sampleJwk]), { sampleProvider with keys := .arr [sampleJwk], keysAt := 59000 }) := by
  rfl

theorem sample_pick : Provider.pick sampleOidc (.arr [sampleJwk]) sampleHeader = .ok [sampleJwk] := by
  rfl

theorem sample_verified (verified : Bool) :
    (sampleProvider.verified sampleOidc (client sampleNetwork sampleIssuer) (sampleToken verified) sampleHeader
      (sampleTalk verified)).1 = .ok (sampleClaims verified) := by
  rw [Provider.verified]
  simp only [sampleTalk, sample_jwks, bind, Except.bind, sample_pick, Provider.firstGood, sample_verify]

def sampleClient : SignIn := ⟨"a", "https://a.co/", "openid email", "a.co", "", .none⟩

theorem sample_redeem (verified : Bool) :
    (sampleCompany.redeem sampleNetwork sampleOidc sampleIssuer (sampleTalk verified) sampleClient sampleRedeem).1 =
      .ok (sampleClaims verified) := by
  have hprovider : sampleCompany.provider = sampleProvider := rfl
  have hdoc : sampleProvider.discovery sampleOidc (client sampleNetwork sampleIssuer) sampleVisit =
      (.ok sampleDoc, sampleProvider) := rfl
  have hgood := sample_verified verified
  rw [redeem, hprovider, Provider.redeem]
  simp only [show (sampleTalk verified).opening = sampleVisit from rfl, hdoc, sample_tokenHeader]
  cases hv : sampleProvider.verified sampleOidc (client sampleNetwork sampleIssuer) (sampleToken verified) sampleHeader
      (sampleTalk verified) with
  | mk r p =>
      rw [hv] at hgood
      cases hgood
      exact sample_claims verified

theorem sample_asks : sampleCompany.enrol.state.askOidc sampleNetwork sampleDevice sampleSignIn "10.0.0.1"
    World.sampleClock =
      (sampleCompany.enrol.state.taken World.sampleClock.swept "n1", .ok (sampleClient, sampleRedeem)) := by
  have hnull : ¬sampleSignIn.isNull = true := by decide
  have hoidc : sampleNetwork.oidc = some sampleClient := rfl
  have hfree : ¬sampleCompany.enrol.state.ipBlocked "10.0.0.1" World.sampleClock.asked = true := by decide
  have hpeer : Json.asStr (sampleSignIn.field "peerId") = some World.samplePeer := by decide
  have hnonce : Json.asStr (sampleSignIn.field "nonce") = some "n1" := by decide
  have hcode : Json.asStr (sampleSignIn.field "code") = some "c" := by decide
  have hverifier : Json.asStr (sampleSignIn.field "verifier") = some "v" := by decide
  have hsig : Json.asStr (sampleSignIn.field "sig") = some sampleSig := by decide
  have hshort : ¬(2048 < Text.length "c" ∨ 128 < Text.length "v") := by decide
  have hhad : (sampleCompany.enrol.state.sweep World.sampleClock.swept).nonces.has "n1" = true := by decide
  have hsigned : signedBy sampleDevice World.samplePeer (enrollMessage sampleNetwork.networkId "n1" ("oidc:" ++ "c"))
      sampleSig = true := by decide +kernel
  simp only [State.askOidc, if_neg hnull, hoidc, if_neg hfree, hpeer, hnonce, hcode, hverifier, hsig, if_neg hshort,
    State.takeNonce_eq, if_pos hhad, if_pos hsigned, sampleRedeem]

theorem sample_admits (verified : Bool) :
    Admits sampleNetwork sampleDevice sampleOidc sampleIssuer sampleCompany sampleSignIn "10.0.0.1" (sampleTalk verified)
      World.sampleClock := by
  refine .inl ?_
  rw [State.enrollOidc, sample_asks]
  dsimp only
  rw [sample_redeem verified]
  rfl

theorem sample_stated : Stated sampleNetwork sampleOidc (sampleTalk true) := by
  intro o jwt head said sig payload _ _ htoken hparts hdecode _ _
  have hjwt : sampleToken true = jwt := Except.ok.inj htoken
  rw [← hjwt, sample_parts] at hparts
  cases hparts
  have hpayload : sampleClaims true = payload := Except.ok.inj ((sample_decode true).symm.trans hdecode)
  exact ⟨true, hpayload ▸ rfl⟩

theorem sample_by_sign_in : (∃ o r jwt key payload,
    SignedIn sampleNetwork sampleOidc sampleIssuer sampleCompany sampleSignIn (sampleTalk true) World.sampleClock o r jwt
      key payload ∧
      listed (sampleCompany.act sampleNetwork sampleDevice sampleOidc sampleIssuer
        (.signIn sampleSignIn "10.0.0.1" (sampleTalk true) World.sampleClock)).enrol.state.list =
        if r.peerId ∈ listed sampleCompany.enrol.state.list then listed sampleCompany.enrol.state.list
        else listed sampleCompany.enrol.state.list ++ [r.peerId]) :=
  (by_sign_in sampleCompany_reached sampleSignIn "10.0.0.1" (sampleTalk true) World.sampleClock (sample_fair true)
    (sample_admits true)).mpr sample_stated

/-- A token with an e-mail of the domain, and nothing said of whether it is verified, admits the device. -/
theorem unverified_admitted : ¬ ∀ (C : Config) (P : Platform) (O : Oidc.Platform) (issuer : String) (d : Disk) (w : Company),
    Reach (act C P O issuer) (Fair C P O issuer) (start d) w → ∀ body ip talk t,
      Fair C P O issuer w (.signIn body ip talk t) → Admits C P O issuer w body ip talk t →
      ∃ o r jwt key payload, SignedIn C O issuer w body talk t o r jwt key payload := by
  intro h
  obtain ⟨o, r, jwt, key, payload, hin⟩ := h _ _ _ _ _ _ sampleCompany_reached sampleSignIn "10.0.0.1" (sampleTalk false)
    World.sampleClock (sample_fair false) (sample_admits false)
  have ho : sampleClient = o := Option.some.inj hin.oidc
  have hjwt : sampleToken false = jwt := Except.ok.inj hin.token
  obtain ⟨text, ⟨head, said, sig, alg, hparts, -, -, hdecode⟩, -⟩ := hin.byKey
  rw [← hjwt, sample_parts] at hparts
  cases hparts
  have hpayload : sampleClaims false = payload := Except.ok.inj ((sample_decode false).symm.trans hdecode)
  have hdomain := hin.domain
  rw [← ho, ← hpayload] at hdomain
  rcases hdomain (by decide) with hhd | ⟨-, htrue⟩
  · exact absurd hhd (by decide)
  · exact absurd htrue (by decide)

end Company

end EncedoChat.Enroll
