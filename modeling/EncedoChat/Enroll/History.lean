import EncedoChat.Enroll.Requests

/-!
# What the requests and the answers say

Which challenge was issued and which was used up, which code was wrong and which window let a device in: all of it is
read off the requests and their answers. What a request does to the state is said once, in `Moves`.
-/

namespace EncedoChat.Enroll

inductive Action where
  | challenge (kind nonce : String) (authorize : Except String (Option Json)) (t : Clock)
  | enroll (body : Json) (ip : String) (t : Clock)
  | enrollOidc (body : Json) (ip : String) (who : SignIn → State.Redeem → Except String Json) (t : Clock)
  | status (body : Json) (t : Clock)
  | unlock
  /-- the holder of a key signs a text -/
  | sign (key : Bytes) (text : String)

def Action.clock : Action → Option Clock
  | .challenge _ _ _ t => some t
  | .enroll _ _ t => some t
  | .enrollOidc _ _ _ t => some t
  | .status _ t => some t
  | .unlock => none
  | .sign _ _ => none

/-- What a device sends. -/
def Action.body : Action → Option Json
  | .enroll body _ _ | .enrollOidc body _ _ _ | .status body _ => some body
  | _ => none

def Action.signs : Action → List (Bytes × String)
  | .sign key text => [(key, text)]
  | _ => []

def State.act (C : Config) (P : Platform) (s : State) : Action → State × Option Answer
  | .challenge kind nonce authorize t => s.challenge C kind nonce authorize t
  | .enroll body ip t => s.enroll C P body ip t
  | .enrollOidc body ip who t => s.enrollOidc C P body ip who t
  | .status body t => s.status C P body t
  | .unlock => (s.unlock, none)
  | .sign _ _ => (s, none)

/-- A request and its answer. -/
structure Event where
  action : Action
  answer : Option Answer

/-- A wrong code: from where, when it was looked at and when it was noted. -/
structure Wrong where
  ip : String
  looked : Nat
  noted : Nat

/-- The request came past the check of its challenge. -/
def Answer.pastChallenge (a : Answer) : Bool :=
  match a.body with
  | .error e _ => !(["locked", "slow-down", "shape", "challenge"].contains e) && a.status ≠ 404
  | _ => true

def Answer.isCode (a : Answer) : Bool :=
  match a.body with
  | .error e _ => e = "code"
  | _ => false

namespace Answer

@[simp] theorem pastChallenge_locked : locked.pastChallenge = false := by decide

@[simp] theorem pastChallenge_slowDown (what : String) : (slowDown what).pastChallenge = false := by
  simp [pastChallenge, slowDown]

@[simp] theorem pastChallenge_shape : shape.pastChallenge = false := by decide

@[simp] theorem pastChallenge_challenge (why : Option String) : (challenge why).pastChallenge = false := by
  simp [pastChallenge, challenge]

@[simp] theorem pastChallenge_signature (why : Option String) : (signature why).pastChallenge = true := by
  simp [pastChallenge, signature]

@[simp] theorem pastChallenge_code (why : String) : (code why).pastChallenge = true := by
  simp [pastChallenge, code]

@[simp] theorem pastChallenge_notSetUp (why : String) : (notSetUp 503 why).pastChallenge = true := by
  simp [pastChallenge, notSetUp]

@[simp] theorem pastChallenge_refusedSignIn (why : String) : (refusedSignIn why).pastChallenge = true := by
  by_cases h : why = "domain" ∨ why = "group"
  · rcases h with rfl | rfl
    · decide
    · decide
  · simp [pastChallenge, refusedSignIn, h]

@[simp] theorem pastChallenge_ok : ok.pastChallenge = true := rfl

@[simp] theorem isCode_locked : locked.isCode = false := by decide

@[simp] theorem isCode_slowDown (what : String) : (slowDown what).isCode = false := by simp [isCode, slowDown]

@[simp] theorem isCode_shape : shape.isCode = false := by decide

@[simp] theorem isCode_challenge (why : Option String) : (challenge why).isCode = false := by simp [isCode, challenge]

@[simp] theorem isCode_signature (why : Option String) : (signature why).isCode = false := by simp [isCode, signature]

@[simp] theorem isCode_code (why : String) : (code why).isCode = true := by simp [isCode, code]

@[simp] theorem isCode_notSetUp (status : Nat) (why : String) : (notSetUp status why).isCode = false := by
  simp [isCode, notSetUp]

end Answer

namespace Event

variable (C : Config) (P : Platform) (e : Event)

/-- The challenge that is given out, and until when it is good. -/
def issues : Option (String × Nat) :=
  match e.action with
  | .challenge kind nonce _ t =>
    some (nonce, t.noted + if kind = "oidc" ∧ C.oidc.isSome then OIDC_NONCE_TTL_MS else NONCE_TTL_MS)
  | _ => none

/-- The challenge that is used up. -/
def spends : Option String :=
  if e.answer.all Answer.pastChallenge then e.action.body.bind (fun body => Json.asStr (body.field "nonce")) else none

def wrong : Option Wrong :=
  match e.action with
  | .enroll _ ip t => if e.answer.any Answer.isCode then some ⟨ip, t.matched, t.noted⟩ else none
  | _ => none

/-- A device is admitted by code. -/
def admits : Bool :=
  match e.action with
  | .enroll _ _ _ => e.answer.any (fun a => a.status = 200)
  | _ => false

/-- The window it is admitted with. -/
def window : Option Int :=
  match e.action, C.key with
  | .enroll body _ t, some key =>
    if e.admits then
      match Json.asStr (body.field "code") with
      | some code => (totpMatch P.hmac key code t.matched).toOption.join
      | none => none
    else none
  | _, _ => none

def unlocks : Bool :=
  match e.action with
  | .unlock => true
  | _ => false

/-- Nothing is given out, nobody is admitted and no code is wrong. -/
structure Quiet : Prop where
  issues : e.issues C = none
  wrong : e.wrong = none
  admits : e.admits = false
  unlocks : e.unlocks = false

variable {C P e}

theorem Quiet.window (h : e.Quiet C) : e.window C P = none := by
  rw [Event.window]
  split
  · rw [if_neg (by simp [h.admits])]
  · rfl

theorem quiet_enroll {body : Json} {ip : String} {t : Clock} {ans : Option Answer} (hcode : ans.any Answer.isCode = false)
    (hok : ans.any (fun a => a.status = 200) = false) : Quiet C ⟨.enroll body ip t, ans⟩ :=
  ⟨rfl, by simp only [Event.wrong, hcode]; rfl, hok, rfl⟩

theorem spends_some {a : Action} {body : Json} {ans : Option Answer} {n : String} (ha : a.body = some body)
    (hpast : ans.all Answer.pastChallenge = true) (hn : Json.asStr (body.field "nonce") = some n) :
    spends ⟨a, ans⟩ = some n := by
  simp [spends, hpast, ha, hn]

theorem spends_none {a : Action} {ans : Option Answer} (hpast : ans.all Answer.pastChallenge = false) :
    spends ⟨a, ans⟩ = none := by
  simp [spends, hpast]

/-- There is no challenge in `null`. -/
theorem spends_null {a : Action} {body : Json} {ans : Option Answer} (ha : a.body = some body) (h : body.isNull = true) :
    spends ⟨a, ans⟩ = none := by
  cases body <;> simp [Json.isNull] at h
  simp [spends, ha, Json.field, Json.asStr]

end Event

namespace State

variable (C : Config) (P : Platform) (s : State)

/-- A challenge is used up. -/
def taken (t : Nat) (n : String) : State := { s.sweep t with nonces := (s.sweep t).nonces.delete n }

theorem takeNonce_eq (t : Nat) (n : String) :
    s.takeNonce t n = if (s.sweep t).nonces.has n then (true, s.taken t n) else (false, s.sweep t) := rfl

/-- A request by code whose challenge and signature are good. -/
structure Answered (body : Json) (ip : String) (t : Clock) (peerId nonce code : String) : Prop where
  unlocked : s.locked = false
  free : s.ipBlocked ip t.asked = false
  ofPeer : Json.asStr (body.field "peerId") = some peerId
  toNonce : Json.asStr (body.field "nonce") = some nonce
  withCode : Json.asStr (body.field "code") = some code
  had : (s.sweep t.swept).nonces.has nonce = true
  signed : ∃ sig, Json.asStr (body.field "sig") = some sig ∧
    signedBy P peerId (enrollMessage C.networkId nonce code) sig = true

/-- The code is that of a window near the clock, and no device used it. -/
structure Matched (t : Clock) (key : Bytes) (code : String) (window : Int) : Prop where
  seed : C.key = some key
  matched : totpMatch P.hmac key code t.matched = .ok (some window)
  unused : (s.sweep t.swept).used.has (window, code) = false

/-- What an action does, and what its answer tells. -/
inductive Moves : Action → State → Option Answer → Prop
  | idle {a : Action} {ans : Option Answer} : Event.Quiet C ⟨a, ans⟩ → Event.spends ⟨a, ans⟩ = none → Moves a s ans
  | swept {a : Action} {t : Clock} {ans : Option Answer} : a.clock = some t → Event.Quiet C ⟨a, ans⟩ →
      Event.spends ⟨a, ans⟩ = none → Moves a (s.sweep t.swept) ans
  | taken {a : Action} {t : Clock} {n : String} {ans : Option Answer} : a.clock = some t → Event.Quiet C ⟨a, ans⟩ →
      Event.spends ⟨a, ans⟩ = some n → (s.sweep t.swept).nonces.has n = true → Moves a (s.taken t.swept n) ans
  | signInRefused {a : Action} {t : Clock} {n ip : String} {ans : Option Answer} : a.clock = some t →
      Event.Quiet C ⟨a, ans⟩ → Event.spends ⟨a, ans⟩ = some n → (s.sweep t.swept).nonces.has n = true →
      Moves a ((s.taken t.swept n).failIp ip t.noted) ans
  | signedIn {body : Json} {ip : String} {who : SignIn → Redeem → Except String Json} {t : Clock} {n : String}
      {list : Option String} {ans : Option Answer} : Event.Quiet C ⟨.enrollOidc body ip who t, ans⟩ →
      Event.spends ⟨.enrollOidc body ip who t, ans⟩ = some n → (s.sweep t.swept).nonces.has n = true →
      Moves (.enrollOidc body ip who t) { s.taken t.swept n with list := list } ans
  | wrong {body : Json} {ip : String} {t : Clock} {peerId n code why : String} :
      Answered C P s body ip t peerId n code →
      Moves (.enroll body ip t) ((s.taken t.swept n).fail ip t.noted) (some (.code why))
  | unlabelled {body : Json} {ip : String} {t : Clock} {peerId n code : String} {key : Bytes} {window : Int} :
      Answered C P s body ip t peerId n code → Matched C P s t key code window →
      Moves (.enroll body ip t)
        { s.taken t.swept n with used := (s.taken t.swept n).used.set (window, code) (t.noted + 3 * STEP_S * 1000) }
        none
  | admitted {body : Json} {ip : String} {t : Clock} {peerId n code label : String} {key : Bytes} {window : Int} :
      Answered C P s body ip t peerId n code → Matched C P s t key code window →
      Moves (.enroll body ip t)
        { s.taken t.swept n with
          used := (s.taken t.swept n).used.set (window, code) (t.noted + 3 * STEP_S * 1000)
          list := addToList P.toWriting s.list peerId label t.noted }
        (some .ok)
  | issued {kind n : String} {authorize : Except String (Option Json)} {t : Clock} {exp : Nat} {ans : Option Answer} :
      Event.issues C ⟨.challenge kind n authorize t, ans⟩ = some (n, exp) →
      Moves (.challenge kind n authorize t)
        { s.sweep t.asked with nonces := (s.sweep t.asked).nonces.set n exp } ans
  | unlocked : Moves .unlock s.unlock none

variable {C P s}

theorem moves_challenge {kind n : String} {authorize : Except String (Option Json)} {t : Clock} :
    Moves C P s (.challenge kind n authorize t) (s.challenge C kind n authorize t).1
      (s.challenge C kind n authorize t).2 := by
  rw [challenge]
  cases ho : C.oidc with
  | none => exact .issued (by simp [Event.issues, ho])
  | some o =>
      by_cases hkind : kind = "oidc"
      · simp only [if_pos hkind]
        exact .issued (by simp [Event.issues, ho, hkind])
      · simp only [if_neg hkind]
        exact .issued (by simp [Event.issues, hkind])

theorem moves_checkCode {body : Json} {ip peerId n code : String} {t : Clock}
    (h : Answered C P s body ip t peerId n code) :
    Moves C P s (.enroll body ip t) ((s.taken t.swept n).checkCode C P ip peerId code (body.field "label") t).1
      ((s.taken t.swept n).checkCode C P ip peerId code (body.field "label") t).2 := by
  rw [checkCode]
  cases hkey : C.key with
  | none =>
      exact .taken rfl (Event.quiet_enroll (by simp) rfl) (Event.spends_some rfl (by simp) h.toNonce) h.had
  | some key =>
      dsimp only
      cases hmatch : totpMatch P.hmac key code t.matched with
      | error _ =>
          exact .taken rfl (Event.quiet_enroll rfl rfl) (Event.spends_some rfl rfl h.toNonce) h.had
      | ok found =>
          cases found with
          | none => exact .wrong h
          | some window =>
              dsimp only
              by_cases hused : (s.taken t.swept n).used.has (window, code) = true
              · rw [if_pos hused]
                exact .wrong h
              · rw [if_neg hused, admitCode]
                have hm : Matched C P s t key code window := ⟨hkey, hmatch, eq_false_of_ne_true hused⟩
                cases Json.label P.numText (body.field "label") with
                | none => exact .unlabelled h hm
                | some label => exact .admitted h hm

theorem moves_enroll {body : Json} {ip : String} {t : Clock} :
    Moves C P s (.enroll body ip t) (s.enroll C P body ip t).1 (s.enroll C P body ip t).2 := by
  rw [enroll]
  by_cases hnull : body.isNull = true
  · rw [if_pos hnull]
    exact .idle ⟨rfl, rfl, rfl, rfl⟩ (Event.spends_null rfl hnull)
  rw [if_neg hnull]
  by_cases hlocked : s.locked = true
  · rw [if_pos hlocked]
    exact .idle (Event.quiet_enroll (by simp) rfl) (Event.spends_none (by simp))
  rw [if_neg hlocked]
  by_cases hip : s.ipBlocked ip t.asked = true
  · rw [if_pos hip]
    exact .idle (Event.quiet_enroll (by simp) rfl) (Event.spends_none (by simp))
  rw [if_neg hip]
  split
  · rename_i peerId nonce code sig hpeer hnonce hcode hsig
    rw [takeNonce_eq]
    by_cases hhad : (s.sweep t.swept).nonces.has nonce = true
    · rw [if_pos hhad]
      dsimp only
      by_cases hsigned : signedBy P peerId (enrollMessage C.networkId nonce code) sig = true
      · rw [if_pos hsigned]
        exact moves_checkCode
          ⟨by simpa using hlocked, by simpa using hip, hpeer, hnonce, hcode, hhad, sig, hsig, hsigned⟩
      · rw [if_neg hsigned]
        exact .taken rfl (Event.quiet_enroll (by simp) rfl) (Event.spends_some rfl (by simp) hnonce) hhad
    · rw [if_neg hhad]
      exact .swept rfl (Event.quiet_enroll (by simp) rfl) (Event.spends_none (by simp))
  · exact .idle (Event.quiet_enroll (by simp) rfl) (Event.spends_none (by simp))

theorem moves_tellOidc {body : Json} {ip n : String} {who : SignIn → Redeem → Except String Json} {t : Clock} {o : SignIn}
    {r : Redeem} {w : Except String Json} (hhad : (s.sweep t.swept).nonces.has n = true)
    (hn : Json.asStr (body.field "nonce") = some n) :
    Moves C P s (.enrollOidc body ip who t) ((s.taken t.swept n).tellOidc P o r ip (body.field "label") w t).1
      ((s.taken t.swept n).tellOidc P o r ip (body.field "label") w t).2 := by
  unfold tellOidc
  cases w with
  | error why => exact .signInRefused rfl ⟨rfl, rfl, rfl, rfl⟩ (Event.spends_some rfl (by simp) hn) hhad
  | ok p =>
      dsimp only
      split
      · exact .signedIn ⟨rfl, rfl, rfl, rfl⟩ (Event.spends_some rfl (by simp) hn) hhad
      · exact .taken rfl ⟨rfl, rfl, rfl, rfl⟩ (Event.spends_some rfl rfl hn) hhad

/-- A sign-in whose challenge and signature are good. -/
structure Signed (C : Config) (P : Platform) (s : State) (body : Json) (t : Clock) (r : Redeem) : Prop where
  ofPeer : Json.asStr (body.field "peerId") = some r.peerId
  toNonce : Json.asStr (body.field "nonce") = some r.nonce
  withCode : Json.asStr (body.field "code") = some r.code
  had : (s.sweep t.swept).nonces.has r.nonce = true
  signed : ∃ sig, Json.asStr (body.field "sig") = some sig ∧
    signedBy P r.peerId (enrollMessage C.networkId r.nonce ("oidc:" ++ r.code)) sig = true

/-- What `askOidc` comes to. -/
inductive Asks (C : Config) (P : Platform) (s : State) (body : Json) (t : Clock) :
    State × Except (Option Answer) (SignIn × Redeem) → Prop
  | refused {ans : Option Answer} : body.isNull = true ∨ ans.all Answer.pastChallenge = false →
      ans.any (fun a => a.status = 200) = false → Asks C P s body t (s, .error ans)
  | swept {why : Option String} : Asks C P s body t (s.sweep t.swept, .error (some (.challenge why)))
  | unsigned {n : String} {why : Option String} : Json.asStr (body.field "nonce") = some n →
      (s.sweep t.swept).nonces.has n = true →
      Asks C P s body t (s.taken t.swept n, .error (some (.signature why)))
  | redeems {o : SignIn} {r : Redeem} : C.oidc = some o → Signed C P s body t r →
      Asks C P s body t (s.taken t.swept r.nonce, .ok (o, r))

theorem asks {body : Json} {ip : String} {t : Clock} : Asks C P s body t (s.askOidc C P body ip t) := by
  rw [askOidc]
  by_cases hnull : body.isNull = true
  · rw [if_pos hnull]
    exact .refused (.inl hnull) rfl
  rw [if_neg hnull]
  cases ho : C.oidc with
  | none => exact .refused (.inr (by simp [Answer.pastChallenge, Answer.notSetUp])) rfl
  | some o =>
      dsimp only
      by_cases hip : s.ipBlocked ip t.asked = true
      · rw [if_pos hip]
        exact .refused (.inr (by simp)) rfl
      rw [if_neg hip]
      split
      · rename_i peerId nonce code verifier sig hpeer hnonce hcode hverifier hsig
        by_cases hlong : 2048 < Text.length code ∨ 128 < Text.length verifier
        · rw [if_pos hlong]
          exact .refused (.inr (by simp)) rfl
        rw [if_neg hlong, takeNonce_eq]
        by_cases hhad : (s.sweep t.swept).nonces.has nonce = true
        · rw [if_pos hhad]
          dsimp only
          by_cases hsigned : signedBy P peerId (enrollMessage C.networkId nonce ("oidc:" ++ code)) sig = true
          · rw [if_pos hsigned]
            exact Asks.redeems (r := ⟨peerId, nonce, code, verifier⟩) ho ⟨hpeer, hnonce, hcode, hhad, sig, hsig, hsigned⟩
          · rw [if_neg hsigned]
            exact .unsigned hnonce hhad
        · rw [if_neg hhad]
          exact .swept
      · exact .refused (.inr (by simp)) rfl

theorem moves_enrollOidc {body : Json} {ip : String} {who : SignIn → Redeem → Except String Json} {t : Clock} :
    Moves C P s (.enrollOidc body ip who t) (s.enrollOidc C P body ip who t).1 (s.enrollOidc C P body ip who t).2 := by
  have hasks : Asks C P s body t (s.askOidc C P body ip t) := asks
  rw [enrollOidc]
  cases hask : s.askOidc C P body ip t with
  | mk s' got =>
      rw [hask] at hasks
      cases hasks with
      | refused h _ =>
          rcases h with h | h
          · exact .idle ⟨rfl, rfl, rfl, rfl⟩ (Event.spends_null rfl h)
          · exact .idle ⟨rfl, rfl, rfl, rfl⟩ (Event.spends_none h)
      | swept => exact .swept rfl ⟨rfl, rfl, rfl, rfl⟩ (Event.spends_none (by simp))
      | unsigned hn hhad => exact .taken rfl ⟨rfl, rfl, rfl, rfl⟩ (Event.spends_some rfl (by simp) hn) hhad
      | redeems _ h => exact moves_tellOidc h.had h.toNonce

theorem moves_status {body : Json} {t : Clock} :
    Moves C P s (.status body t) (s.status C P body t).1 (s.status C P body t).2 := by
  rw [status]
  by_cases hnull : body.isNull = true
  · rw [if_pos hnull]
    exact .idle ⟨rfl, rfl, rfl, rfl⟩ (Event.spends_null rfl hnull)
  rw [if_neg hnull]
  split
  · rename_i peerId nonce sig hpeer hnonce hsig
    rw [takeNonce_eq]
    by_cases hhad : (s.sweep t.swept).nonces.has nonce = true
    · rw [if_pos hhad]
      dsimp only
      by_cases hsigned : signedBy P peerId (statusMessage C.networkId nonce) sig = true
      · rw [if_pos hsigned]
        exact .taken rfl ⟨rfl, rfl, rfl, rfl⟩ (Event.spends_some rfl rfl hnonce) hhad
      · rw [if_neg hsigned]
        exact .taken rfl ⟨rfl, rfl, rfl, rfl⟩ (Event.spends_some rfl (by simp) hnonce) hhad
    · rw [if_neg hhad]
      exact .swept rfl ⟨rfl, rfl, rfl, rfl⟩ (Event.spends_none (by simp))
  · exact .idle ⟨rfl, rfl, rfl, rfl⟩ (Event.spends_none (by simp))

theorem moves (C : Config) (P : Platform) (s : State) (a : Action) : Moves C P s a (s.act C P a).1 (s.act C P a).2 := by
  cases a with
  | challenge kind nonce authorize t => exact moves_challenge
  | enroll body ip t => exact moves_enroll
  | enrollOidc body ip who t => exact moves_enrollOidc
  | status body t => exact moves_status
  | unlock => exact .unlocked
  | sign key text => exact .idle ⟨rfl, rfl, rfl, rfl⟩ (by simp [Event.spends, Action.body])

end State

end EncedoChat.Enroll
