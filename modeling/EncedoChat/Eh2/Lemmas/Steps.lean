import EncedoChat.Lib.Except
import EncedoChat.Eh2.State

/-!
# What one call can do

Every case of `encrypt` and `decrypt` once, so that the invariants never unfold either.
-/

namespace EncedoChat.Eh2

variable {S : Suite} {o : Opts}

namespace Ratchet

/-! ## The fields each part of `encrypt` leaves alone -/

section
variable (s : Ratchet S) (d : EncryptDraws S) (dh : S.Shared) (at_ : Time) (k : S.KemKey)

@[simp] theorem dhPeerPub_countStep : (s.countStep at_).dhPeerPub = s.dhPeerPub := by
  unfold countStep; split <;> rfl
@[simp] theorem ckRecv_countStep : (s.countStep at_).ckRecv = s.ckRecv := by
  unfold countStep; split <;> rfl
@[simp] theorem nRecv_countStep : (s.countStep at_).nRecv = s.nRecv := by
  unfold countStep; split <;> rfl
@[simp] theorem skipped_countStep : (s.countStep at_).skipped = s.skipped := by
  unfold countStep; split <;> rfl
@[simp] theorem pqKey_countStep : (s.countStep at_).pqKey = s.pqKey := by
  unfold countStep; split <;> rfl
@[simp] theorem seenPeerPqPub_countStep : (s.countStep at_).seenPeerPqPub = s.seenPeerPqPub := by
  unfold countStep; split <;> rfl
@[simp] theorem pendingSs_countStep : (s.countStep at_).pendingSs = none := by
  unfold countStep; split <;> simp_all
theorem ctInFlight_countStep : (s.countStep at_).ctInFlight =
    if s.pendingSs.isSome then s.pendingCt else s.ctInFlight := by
  unfold countStep; split <;> simp_all
theorem pendingCt_countStep : (s.countStep at_).pendingCt =
    if s.pendingSs.isSome then none else s.pendingCt := by
  unfold countStep; split <;> simp_all

theorem issuePqKey_eq : ∃ pqKey, s.issuePqKey o k at_ = { s with pqKey := pqKey } ∧
    (∀ j, s.pqKey = some j → pqKey = some j) := by
  unfold issuePqKey
  split
  · rename_i h
    simp only [Bool.and_eq_true, Option.isNone_iff_eq_none] at h
    exact ⟨_, rfl, fun j hj => by rw [h.1] at hj; cases hj⟩
  · exact ⟨s.pqKey, rfl, fun _ hj => hj⟩

end

/-- The state in which a call that opens a sending chain seals. -/
theorem openSendChain_eq (s : Ratchet S) (d : EncryptDraws S) (dh : S.Shared) : ∃ pqKey,
    openSendChain o s d dh = { s.countStep d.pqAt with
      dhSelf := some d.newDh
      rk := (S.dhStep s.rk (s.rootIkm dh)).1
      ckSend := some (S.dhStep s.rk (s.rootIkm dh)).2
      pn := s.nSend
      nSend := 0
      stepBeforeSend := false
      pqKey := pqKey } ∧ (∀ j, s.pqKey = some j → pqKey = some j) := by
  obtain ⟨pqKey, he, hk⟩ := issuePqKey_eq (o := o)
    { s.countStep d.pqAt with
      dhSelf := some d.newDh, rk := (S.dhStep s.rk (s.rootIkm dh)).1
      ckSend := some (S.dhStep s.rk (s.rootIkm dh)).2, pn := s.nSend, nSend := 0
      stepBeforeSend := false } d.cadenceAt d.kemKey
  exact ⟨pqKey, he, fun j hj => hk j (by simpa using hj)⟩

theorem encrypt_of_step {role : Role} {s : Ratchet S} {d : EncryptDraws S} {pt : Bytes} {dh : S.Shared}
    (hm : s.mustStep = true) (hd : S.dh d.newDh s.dhPeerPub = some dh) :
    encrypt o role s d pt =
      let r := sealNext role (openSendChain o s d dh) d.newDh (S.dhStep s.rk (s.rootIkm dh)).2 pt
      (r.1, some r.2) := by
  obtain ⟨pqKey, he, -⟩ := openSendChain_eq (o := o) s d dh
  rw [encrypt, if_pos hm, hd]
  simp only [he]

theorem encrypt_of_chain {role : Role} {s : Ratchet S} {d : EncryptDraws S} {pt : Bytes} {self : S.Priv}
    {ck : S.Key} (hm : s.mustStep = false) (hs : s.dhSelf = some self) (hc : s.ckSend = some ck) :
    encrypt o role s d pt = let r := sealNext role s self ck pt; (r.1, some r.2) := by
  rw [encrypt, if_neg (by simp [hm])]
  simp only [hs, hc]

/-! ## The three ways a frame opens -/

@[simp] theorem walk_messageKey (ck : S.Key) (k : Nat) :
    S.chain.messageKey (S.chain.walk ck k).2 = S.chain.keyAt ck k := by
  rw [KeyChain.walk_snd, KeyChain.keyAt]

@[simp] theorem walk_chainNext (ck : S.Key) (k : Nat) :
    S.chain.chainNext (S.chain.walk ck k).2 = S.chain.chainAt ck (k + 1) := by
  rw [KeyChain.walk_snd, KeyChain.chainAt_succ]

/-- The frame opens under `mk` as message `n`. -/
def OpensAt (opens : Open S) (mk : S.Key) (n : Nat) (header ct pt : Bytes) : Prop :=
  opens mk (S.aeadNonce mk (Bytes.u32be n)) header ct = some pt

theorem tryOpen_ok {opens : Open S} {mk : S.Key} {header ct pt : Bytes} {n : Nat} :
    tryOpen opens mk header ct n = .ok pt ↔ OpensAt opens mk n header ct pt := by
  unfold tryOpen OpensAt
  split <;> simp_all

theorem advance_ok {ck : S.Key} {start stop : Nat} {r : List S.Key × S.Key} :
    advance o ck start stop = .ok r ↔ stop - start ≤ o.maxSkip ∧ S.chain.walk ck (stop - start) = r := by
  unfold advance
  split
  · simp; omega
  · simp; omega

/-- What `openSameChain` commits. -/
def afterSame (o : Opts) (s : Ratchet S) (d : DecryptDraws S) (h : Header) (ck : S.Key) : Ratchet S :=
  { s with
    skipped := SkippedKeys.putAll o.maxChains h.dhPub d.walkAt s.skipped s.nRecv
      (S.chain.walk ck (h.n - s.nRecv)).1
    ckRecv := some (S.chain.chainAt ck (h.n - s.nRecv + 1))
    nRecv := h.n + 1 }

/-- What `openTurned` commits, but for the count of an answered key. -/
def afterTurn (o : Opts) (s : Ratchet S) (d : DecryptDraws S) (h : Header) (closing : List S.Key)
    (ikm : RootIkm S.Shared S.Ss) : Ratchet S :=
  { s with
    skipped := SkippedKeys.putAll o.maxChains h.dhPub d.walkAt
      (SkippedKeys.putAll o.maxChains s.dhPeerPub d.closingAt s.skipped s.nRecv closing) 0
      (S.chain.walk (S.dhStep s.rk ikm).2 h.n).1
    rk := (S.dhStep s.rk ikm).1
    ckRecv := some (S.chain.chainAt (S.dhStep s.rk ikm).2 (h.n + 1))
    dhPeerPub := h.dhPub
    nRecv := h.n + 1
    stepBeforeSend := true
    ctInFlight := none }

/-- The frame opens: with a key set aside, further along the receiving chain, or on the chain of a
new key of the peer. -/
inductive Opens (o : Opts) (opens : Open S) (s : Ratchet S) (d : DecryptDraws S) (h : Header)
    (header ct : Bytes) : Ratchet S → Bytes → Prop
  | stashed {mk pt} :
      s.skipped.peek h.dhPub h.n = some mk → OpensAt opens mk h.n header ct pt →
      Opens o opens s d h header ct { s with skipped := s.skipped.drop h.dhPub h.n } pt
  | same {ck pt} :
      s.skipped.peek h.dhPub h.n = none → h.dhPub = s.dhPeerPub → s.ckRecv = some ck →
      s.nRecv ≤ h.n → h.n - s.nRecv ≤ o.maxSkip →
      OpensAt opens (S.chain.keyAt ck (h.n - s.nRecv)) h.n header ct pt →
      Opens o opens s d h header ct (afterSame o s d h ck) pt
  | turned {self dh ikm closing pt} :
      s.skipped.peek h.dhPub h.n = none → h.dhPub ≠ s.dhPeerPub → s.dhSelf = some self →
      closeChain o s h = .ok closing → S.dh self h.dhPub = some dh → s.answerIkm h dh = some ikm →
      h.n ≤ o.maxSkip → OpensAt opens (S.chain.keyAt (S.dhStep s.rk ikm).2 h.n) h.n header ct pt →
      Opens o opens s d h header ct (countAnswer (afterTurn o s d h closing ikm) h d.pqAt) pt

/-- The message key a header asks for in this state. -/
inductive Selects (o : Opts) (s : Ratchet S) (h : Header) : S.Key → Prop
  | stashed {mk} : s.skipped.peek h.dhPub h.n = some mk → Selects o s h mk
  | same {ck} :
      s.skipped.peek h.dhPub h.n = none → h.dhPub = s.dhPeerPub → s.ckRecv = some ck →
      s.nRecv ≤ h.n → h.n - s.nRecv ≤ o.maxSkip → Selects o s h (S.chain.keyAt ck (h.n - s.nRecv))
  | turned {self dh ikm closing} :
      s.skipped.peek h.dhPub h.n = none → h.dhPub ≠ s.dhPeerPub → s.dhSelf = some self →
      closeChain o s h = .ok closing → S.dh self h.dhPub = some dh → s.answerIkm h dh = some ikm →
      h.n ≤ o.maxSkip → Selects o s h (S.chain.keyAt (S.dhStep s.rk ikm).2 h.n)

section
variable {opens : Open S} {s s' : Ratchet S} {d : DecryptDraws S} {h : Header} {header ct pt : Bytes}

theorem openSameChain_ok {ck : S.Key} :
    openSameChain o opens s d ck h header ct = .ok (s', pt) ↔
      s.nRecv ≤ h.n ∧ h.n - s.nRecv ≤ o.maxSkip ∧
      OpensAt opens (S.chain.keyAt ck (h.n - s.nRecv)) h.n header ct pt ∧ s' = afterSame o s d h ck := by
  unfold openSameChain
  split
  · simp; omega
  · simp only [bind_ok, advance_ok, tryOpen_ok, pure, Except.pure, Except.ok.injEq, Prod.mk.injEq]
    constructor
    · rintro ⟨_, ⟨hle, rfl⟩, pt', hpt, rfl, rfl⟩
      exact ⟨by omega, hle, by simpa using hpt, by simp [afterSame]⟩
    · rintro ⟨-, hle, hpt, rfl⟩
      exact ⟨_, ⟨hle, rfl⟩, pt, by simpa using hpt, by simp [afterSame], rfl⟩

theorem answer_needs_key {dh : S.Shared} {ikm : RootIkm S.Shared S.Ss}
    (ha : s.answerIkm h dh = some ikm) : (h.pqCt.isSome && s.pqKey.isNone) = false := by
  unfold answerIkm at ha
  cases hc : h.pqCt with
  | none => rfl
  | some c =>
      cases hk : s.pqKey with
      | none => simp [hc, hk] at ha
      | some k => rfl

theorem openTurned_ok :
    openTurned o opens s d h header ct = .ok (s', pt) ↔
      ∃ self dh ikm closing, s.dhSelf = some self ∧ closeChain o s h = .ok closing ∧
        S.dh self h.dhPub = some dh ∧ s.answerIkm h dh = some ikm ∧ h.n ≤ o.maxSkip ∧
        OpensAt opens (S.chain.keyAt (S.dhStep s.rk ikm).2 h.n) h.n header ct pt ∧
        s' = countAnswer (afterTurn o s d h closing ikm) h d.pqAt := by
  unfold openTurned
  split
  · rename_i hs; simp [hs]
  · rename_i self hs
    by_cases hg : (h.pqCt.isSome && s.pqKey.isNone) = true
    · constructor
      · intro hok; rw [if_pos hg] at hok; cases hok
      · rintro ⟨_, _, _, _, -, -, -, ha, -⟩
        rw [answer_needs_key ha] at hg; cases hg
    · simp only [if_neg hg, bind_ok, advance_ok, tryOpen_ok, elim_ok, pure, Except.pure, Except.ok.injEq,
        Prod.mk.injEq, Nat.sub_zero]
      constructor
      · rintro ⟨closing, hc, dh, hdh, ikm, hikm, _, ⟨hle, rfl⟩, pt', hpt, rfl, rfl⟩
        exact ⟨self, dh, ikm, closing, hs, hc, hdh, hikm, hle, by simpa using hpt, by simp [afterTurn]⟩
      · rintro ⟨self', dh, ikm, closing, hself, hc, hdh, hikm, hle, hpt, rfl⟩
        rw [hs] at hself; cases hself
        exact ⟨closing, hc, dh, hdh, ikm, hikm, _, ⟨hle, rfl⟩, pt, by simpa using hpt,
          by simp [afterTurn], rfl⟩

theorem openFrame_ok :
    openFrame o opens s d h header ct = .ok (s', pt) ↔ Opens o opens s d h header ct s' pt := by
  unfold openFrame
  cases hp : s.skipped.peek h.dhPub h.n with
  | some mk =>
      simp only [bind_ok, tryOpen_ok, pure, Except.pure, Except.ok.injEq, Prod.mk.injEq]
      constructor
      · rintro ⟨pt', hpt, rfl, rfl⟩
        exact .stashed hp hpt
      · intro hop
        cases hop with
        | stashed hp' hpt => rw [hp] at hp'; cases hp'; exact ⟨pt, hpt, rfl, rfl⟩
        | same hn => rw [hp] at hn; cases hn
        | turned hn => rw [hp] at hn; cases hn
  | none =>
      by_cases hd : h.dhPub = s.dhPeerPub
      · simp only [if_pos hd]
        cases hc : s.ckRecv with
        | none =>
            constructor
            · intro hok; cases hok
            · intro hop
              cases hop with
              | stashed hp' => rw [hp] at hp'; cases hp'
              | same _ _ hc' => rw [hc] at hc'; cases hc'
              | turned _ hne => exact absurd hd hne
        | some ck =>
            simp only [openSameChain_ok]
            constructor
            · rintro ⟨hle, hsk, hpt, rfl⟩
              exact .same hp hd hc hle hsk hpt
            · intro hop
              cases hop with
              | stashed hp' => rw [hp] at hp'; cases hp'
              | same _ _ hc' hle hsk hpt => rw [hc] at hc'; cases hc'; exact ⟨hle, hsk, hpt, rfl⟩
              | turned _ hne => exact absurd hd hne
      · simp only [if_neg hd, openTurned_ok]
        constructor
        · rintro ⟨self, dh, ikm, closing, hs, hc, hdh, hikm, hle, hpt, rfl⟩
          exact .turned hp hd hs hc hdh hikm hle hpt
        · intro hop
          cases hop with
          | stashed hp' => rw [hp] at hp'; cases hp'
          | same _ hd' => exact absurd hd' hd
          | turned _ _ hs hc hdh hikm hle hpt =>
              exact ⟨_, _, _, _, hs, hc, hdh, hikm, hle, hpt, rfl⟩

theorem Opens.selects (hop : Opens o opens s d h header ct s' pt) :
    ∃ mk, Selects o s h mk ∧ OpensAt opens mk h.n header ct pt := by
  cases hop with
  | stashed hp hpt => exact ⟨_, .stashed hp, hpt⟩
  | same hp hd hc hle hsk hpt => exact ⟨_, .same hp hd hc hle hsk, hpt⟩
  | turned hp hd hs hc hdh hikm hle hpt => exact ⟨_, .turned hp hd hs hc hdh hikm hle, hpt⟩

theorem Selects.toOpens {mk : S.Key} (hs : Selects o s h mk) (hpt : OpensAt opens mk h.n header ct pt) :
    ∃ s', Opens o opens s d h header ct s' pt := by
  cases hs with
  | stashed hp => exact ⟨_, .stashed hp hpt⟩
  | same hp hd hc hle hsk => exact ⟨_, .same hp hd hc hle hsk hpt⟩
  | turned hp hd hself hc hdh hikm hle => exact ⟨_, .turned hp hd hself hc hdh hikm hle hpt⟩

theorem countAnswer_eq (s : Ratchet S) (h : Header) (pqAt : Time) : ∃ steps last done,
    countAnswer s h pqAt = { s with
      pqKey := if h.pqCt.isSome then none else s.pqKey
      stepsSincePq := steps, lastPqAt := last, pqStepsDone := done } := by
  unfold countAnswer
  split
  · exact ⟨_, _, _, rfl⟩
  · exact ⟨_, _, _, rfl⟩

theorem Opens.seenPeerPqPub (hop : Opens o opens s d h header ct s' pt) :
    s'.seenPeerPqPub = s.seenPeerPqPub := by
  cases hop with
  | stashed => rfl
  | same => rfl
  | @turned self dh ikm closing =>
      obtain ⟨_, _, _, he⟩ := countAnswer_eq (afterTurn o s d h closing ikm) h d.pqAt
      rw [he]; rfl

theorem notePeerPqPub_none {coins : S.Coins} {p : Option Bytes} :
    notePeerPqPub s coins p = none ↔
      ∃ pub, p = some pub ∧ s.seenPeerPqPub ≠ some pub ∧ S.encapsulate pub coins = none := by
  unfold notePeerPqPub
  cases p with
  | none => simp
  | some pub =>
      by_cases hs : s.seenPeerPqPub = some pub
      · simp [hs]
      · simp [hs]

/-! ## A whole call -/

theorem notePeerPqPub_eq {coins : S.Coins} {p : Option Bytes} (hn : notePeerPqPub s coins p = some s') :
    s' = s ∨ ∃ pub ct ss, p = some pub ∧ s.seenPeerPqPub ≠ some pub ∧
      S.encapsulate pub coins = some (ct, ss) ∧
      s' = { s with pendingSs := some ss, pendingCt := some ct, seenPeerPqPub := some pub } := by
  unfold notePeerPqPub at hn
  cases p with
  | none => cases hn; exact Or.inl rfl
  | some pub =>
      dsimp only at hn
      split at hn
      · cases hn; exact Or.inl rfl
      · rename_i hne
        simp only [Option.map_eq_some_iff] at hn
        obtain ⟨⟨ct, ss⟩, he, rfl⟩ := hn
        exact Or.inr ⟨pub, ct, ss, rfl, hne, he, rfl⟩

/-- A call hands out a plaintext, keeps the old state up to expired keys, or fails after the commit. -/
theorem decrypt_cases (o : Opts) (opens : Open S) (s : Ratchet S) (d : DecryptDraws S) (frame : Bytes) :
    (∃ r, decrypt o opens s d frame = (s, .error r) ∧ decodeHeader frame = none) ∨
    (∃ h len r, decodeHeader frame = some (h, len) ∧
      openFrame o opens (s.prune o d.pruneAt) d h (frame.take len) (frame.drop len) = .error r ∧
      decrypt o opens s d frame = (s.prune o d.pruneAt, .error r)) ∨
    (∃ h len s₁ pt, decodeHeader frame = some (h, len) ∧
      Opens o opens (s.prune o d.pruneAt) d h (frame.take len) (frame.drop len) s₁ pt ∧
      ((notePeerPqPub s₁ d.coins h.pqPub = none ∧ decrypt o opens s d frame = (s₁, .error .kem)) ∨
        ∃ s₂, notePeerPqPub s₁ d.coins h.pqPub = some s₂ ∧ decrypt o opens s d frame = (s₂, .ok pt))) := by
  unfold decrypt
  cases hd : decodeHeader frame with
  | none => exact Or.inl ⟨_, rfl, rfl⟩
  | some hl =>
      obtain ⟨h, len⟩ := hl
      refine Or.inr ?_
      dsimp only
      cases hf : openFrame o opens (s.prune o d.pruneAt) d h (frame.take len) (frame.drop len) with
      | error r => exact Or.inl ⟨h, len, r, rfl, hf, rfl⟩
      | ok sp =>
          obtain ⟨s₁, pt⟩ := sp
          refine Or.inr ⟨h, len, s₁, pt, rfl, openFrame_ok.mp hf, ?_⟩
          dsimp only
          cases hn : notePeerPqPub s₁ d.coins h.pqPub with
          | none => exact Or.inl ⟨rfl, rfl⟩
          | some s₂ => exact Or.inr ⟨s₂, rfl, rfl⟩

end

end Ratchet

end EncedoChat.Eh2
