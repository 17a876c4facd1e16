import EncedoChat.Core.Ratchet
import EncedoChat.Eh2.Transactional
import EncedoChat.Lib.Run

/-!
# The two ratchets side by side

The same calls, draws and clock readings for `eh2/ratchet.ts` and for `core-rs/src/ratchet.rs`. They show
the same frames, outcomes and counters up to the calls that a `u32`, a key the KEM or X25519 refuses, a
store without room or a clock turned back tells apart.
-/

namespace EncedoChat.Core

open EncedoChat.Eh2 (Suite RootIkm Pub Header HandshakeResult Open Opts Role Refusal Time)

variable {S : Suite}

/-- The options as the other ratchet takes them. -/
def RatchetOpts.ts (o : RatchetOpts) : Opts :=
  ⟨o.maxSkipPerChain.toNat, o.maxChainsBack, o.skippedTtlMs.toNat, o.pqEverySteps.toNat, o.pqEveryMs.toNat⟩

/-- A call with what it may draw and the reading of the clock. -/
inductive Call (S : Suite) where
  | encrypt (newDh : S.Priv) (kemKey : S.KemKey) (now : Nat) (plaintext : Bytes)
  | decrypt (coins : S.Coins) (now : Nat) (frame : Bytes)

/-- What the caller sees of a call. -/
inductive Outcome where
  | frame (b : Bytes)
  | plaintext (b : Bytes)
  | refused
  | skipBound (asked : Nat)
  | threw
  | aborted
  deriving DecidableEq

def ofRefusal : Refusal → Outcome
  | .null => .refused
  | .skipBound asked _ => .skipBound asked
  | .dh => .threw
  | .kem => .threw

def ofStop : Ratchet.Stop → Outcome
  | .notOurs => .refused
  | .skipBound asked => .skipBound asked
  | .panic => .aborted

def counters (s : Eh2.Ratchet S) : Stats :=
  ⟨s.nSend, s.nRecv, s.skipped.size, s.pqKey.isSome, s.pqStepsDone⟩

/-- One reading for the whole call. -/
def encryptDraws (newDh : S.Priv) (kemKey : S.KemKey) (now : Nat) : Eh2.EncryptDraws S := ⟨newDh, kemKey, now, now⟩

def decryptDraws (coins : S.Coins) (now : Nat) : Eh2.DecryptDraws S :=
  ⟨now, fun _ => now, fun _ => now, now, coins⟩

/-- A call on the TypeScript ratchet. -/
def callTs (o : RatchetOpts) (opens : Open S) (role : Role) (s : Eh2.Ratchet S) :
    Call S → Eh2.Ratchet S × (Outcome × Stats)
  | .encrypt newDh kemKey now pt =>
    let r := s.encrypt o.ts role (encryptDraws newDh kemKey now) pt
    (r.1, r.2.elim .threw fun e => .frame e.frame, counters r.1)
  | .decrypt coins now frame =>
    let r := s.decrypt o.ts opens (decryptDraws coins now) frame
    (r.1, match r.2 with | .ok pt => .plaintext pt | .error e => ofRefusal e, counters r.1)

/-- The same call on the Rust ratchet. -/
def callCore (X : Dalek S) (o : RatchetOpts) (opens : Open S) (s : Ratchet S) :
    Call S → Ratchet S × (Outcome × Stats)
  | .encrypt newDh kemKey now pt =>
    match s.encrypt X o newDh kemKey now pt with
    | some r => (r.1, .frame r.2, r.1.stats)
    | none => (s, .aborted, s.stats)
  | .decrypt coins now frame =>
    let r := s.decrypt X o opens coins now frame
    (r.1, match r.2 with | .ok pt => .plaintext pt | .error e => ofStop e, r.1.stats)

/-! ## The calls the two answer alike -/

/-- The clock stands before the last hybrid step, with no interval to wait: subtraction that stops at
zero says a key is due. -/
def TurnedBack (o : RatchetOpts) (s : Eh2.Ratchet S) (now : Nat) : Prop :=
  s.pendingSs = none ∧ s.pqKey = none ∧ s.stepsSincePq + 1 < o.pqEverySteps.toNat ∧ o.pqEveryMs.toNat = 0 ∧
    (now : Time) < s.lastPqAt

def EncryptOk (o : RatchetOpts) (s : Eh2.Ratchet S) (newDh : S.Priv) (now : Nat) : Prop :=
  if s.mustStep then
    S.dh newDh s.dhPeerPub ≠ none ∧ (s.pendingSs.isSome → s.pqStepsDone + 1 < 2 ^ 32) ∧ ¬TurnedBack o s now
  else s.nSend + 1 < 2 ^ 32

/-- The frame turns the conversation and gets as far as the DH. -/
def Turns (o : RatchetOpts) (s : Eh2.Ratchet S) (h : Header) : Prop :=
  s.skipped.peek h.dhPub h.n = none ∧ h.dhPub ≠ s.dhPeerPub ∧ (h.pqCt.isSome && s.pqKey.isNone) = false ∧
    ∃ closing, s.closeChain o.ts h = .ok closing

/-- How many keys the frame has set aside. -/
def passedOver (s : Eh2.Ratchet S) (h : Header) : Nat :=
  if h.dhPub = s.dhPeerPub then h.n - s.nRecv
  else (if s.ckRecv.isSome then h.pn - s.nRecv else 0) + h.n

/-- The counters the frame moves fit a `u32`, and there is room for the keys it passes over. -/
def InRange (o : RatchetOpts) (s : Eh2.Ratchet S) (h : Header) : Prop :=
  s.skipped.peek h.dhPub h.n = none →
    h.n + 1 < 2 ^ 32 ∧ (h.dhPub ≠ s.dhPeerPub → h.pqCt.isSome → s.pqStepsDone + 1 < 2 ^ 32) ∧
      (0 < o.maxChainsBack ∨ passedOver s h = 0)

structure DecryptOk (o : RatchetOpts) (opens : Open S) (s : Eh2.Ratchet S) (coins : S.Coins) (now : Nat)
    (frame : Bytes) : Prop where
  /-- X25519 refuses no key the conversation turns to. -/
  dh : ∀ h len me, Eh2.decodeHeader frame = some (h, len) → Turns o (s.prune o.ts now) h →
    s.dhSelf = some me → S.dh me h.dhPub ≠ none
  /-- No frame that opens carries a new encapsulation key that the KEM refuses. -/
  pqPub : ¬s.BadPqPub o.ts opens (decryptDraws coins now) frame
  inRange : ∀ h len mk pt, Eh2.decodeHeader frame = some (h, len) →
    Eh2.Ratchet.Selects o.ts (s.prune o.ts now) h mk →
    Eh2.Ratchet.OpensAt opens mk h.n (frame.take len) (frame.drop len) pt → InRange o (s.prune o.ts now) h

def CallOk (o : RatchetOpts) (opens : Open S) (s : Eh2.Ratchet S) : Call S → Prop
  | .encrypt newDh _ now _ => EncryptOk o s newDh now
  | .decrypt coins now frame => DecryptOk o opens s coins now frame

/-! ## The relation -/

/-- The two hold the same, the counters of the one modulo `2 ^ 32`. -/
structure Agrees (r : Ratchet S) (s : Eh2.Ratchet S) : Prop where
  rk : r.rk = s.rk
  dhSelf : r.dhSelf = s.dhSelf
  dhPeerPub : r.dhPeerPub = s.dhPeerPub
  ckSend : r.ckSend = s.ckSend
  ckRecv : r.ckRecv = s.ckRecv
  nSend : r.nSend = u32 s.nSend
  nRecv : r.nRecv = u32 s.nRecv
  pn : r.pn = u32 s.pn
  stepBeforeSend : r.stepBeforeSend = s.stepBeforeSend
  skipped : r.skipped.Same s.skipped
  pqKey : r.pqKey = s.pqKey
  pendingSs : r.pendingSs = s.pendingSs
  pendingCt : r.pendingCt = s.pendingCt
  ctInFlight : r.ctInFlight = s.ctInFlight
  seenPeerPqPub : r.seenPeerPqPub = s.seenPeerPqPub
  stepsSincePq : r.stepsSincePq = u32 s.stepsSincePq
  lastPqAt : s.lastPqAt = r.lastPqAt
  pqStepsDone : r.pqStepsDone = u32 s.pqStepsDone

/-- The counters a caller can read fit a `u32`. -/
structure Small (s : Eh2.Ratchet S) : Prop where
  nSend : s.nSend < 2 ^ 32
  nRecv : s.nRecv < 2 ^ 32
  pqStepsDone : s.pqStepsDone < 2 ^ 32

/-- What else the calls keep. -/
structure Kept (o : RatchetOpts) (s : Eh2.Ratchet S) : Prop where
  /-- Where the count of steps is read it has not wrapped. -/
  counting : s.pqKey = none → s.stepsSincePq + 1 < 2 ^ 32
  sending : s.ckSend.isSome → s.dhSelf.isSome
  noRoom : o.maxChainsBack = 0 → s.skipped.chains.entries = []

variable {X : Dalek S} {o : RatchetOpts} {r : Ratchet S} {s : Eh2.Ratchet S} {opens : Open S}

theorem Agrees.stats (h : Agrees r s) : r.stats = counters s ↔ Small s := by
  simp only [Ratchet.stats, counters, Stats.mk.injEq, h.nSend, h.nRecv, h.skipped.size, h.pqKey,
    h.pqStepsDone, u32_eq_self, true_and]
  exact ⟨fun ⟨h₁, h₂, h₃⟩ => ⟨h₁, h₂, h₃⟩, fun ⟨h₁, h₂, h₃⟩ => ⟨h₁, h₂, h₃⟩⟩

theorem Agrees.start (hs : HandshakeResult S) (now : Nat) :
    Agrees (Ratchet.fromHandshake hs now) (Eh2.ratchetFrom hs now) where
  rk := rfl
  dhSelf := rfl
  dhPeerPub := rfl
  ckSend := rfl
  ckRecv := rfl
  nSend := rfl
  nRecv := rfl
  pn := rfl
  stepBeforeSend := by
    simp only [Ratchet.fromHandshake, Eh2.ratchetFrom]
    cases hs.role <;> decide
  skipped := rfl
  pqKey := rfl
  pendingSs := rfl
  pendingCt := rfl
  ctInFlight := rfl
  seenPeerPqPub := rfl
  stepsSincePq := rfl
  lastPqAt := rfl
  pqStepsDone := rfl

theorem Small.start (hs : HandshakeResult S) (now : Time) : Small (Eh2.ratchetFrom hs now) :=
  ⟨by norm_num [Eh2.ratchetFrom], by norm_num [Eh2.ratchetFrom], by norm_num [Eh2.ratchetFrom]⟩

theorem Kept.start (hs : HandshakeResult S) (hself : hs.role = .initiator → hs.ekSelf.isSome) (now : Time) :
    Kept o (Eh2.ratchetFrom hs now) where
  counting _ := show 0 + 1 < 2 ^ 32 by norm_num
  sending h := by
    simp only [Eh2.ratchetFrom] at h ⊢
    split at h
    · rename_i hr; exact hself hr
    · cases h
  noRoom _ := rfl

/-! ## Sending -/

theorem Agrees.mustStep (h : Agrees r s) : (r.stepBeforeSend || r.ckSend.isNone) = s.mustStep := by
  rw [h.stepBeforeSend, h.ckSend, Eh2.Ratchet.mustStep]

/-- The two seal the same frame. -/
theorem Agrees.sealNext (h : Agrees r s) (role : Role) (me : S.Priv) (ck : S.Key) (pt : Bytes) :
    (r.sealNext me ck pt).2 = (s.sealNext role me ck pt).2.frame ∧
      Agrees (r.sealNext me ck pt).1 (s.sealNext role me ck pt).1 := by
  have hheader : encodeHeader ⟨S.pub me, r.pn, r.nSend, r.ctInFlight, r.pqKey.map S.kemPub⟩
      = Eh2.encodeHeader (s.nextHeader me) := by
    rw [h.pn, h.nSend, h.ctInFlight, h.pqKey]
    exact encodeHeader_u32 (s.nextHeader me)
  constructor
  · simp only [Ratchet.sealNext, hheader, Eh2.Ratchet.sealNext, Eh2.Sealed.frame]
    rw [h.nSend, u32be_u32]
  · exact { h with
      ckSend := rfl
      nSend := by simp only [Ratchet.sealNext, Eh2.Ratchet.sealNext, h.nSend, u32_add_one] }

/-- The two say alike whether a fresh key is due, unless the clock was turned back. -/
theorem Agrees.pqDue (h : Agrees r s) (hsteps : s.pqKey = none → s.stepsSincePq < 2 ^ 32) {now : Nat}
    (hback : s.pqKey = none → s.stepsSincePq < o.pqEverySteps.toNat → o.pqEveryMs.toNat = 0 →
      s.lastPqAt ≤ (now : Time)) :
    r.pqDue o now = (s.pqKey.isNone && (decide (o.ts.pqEvery ≤ s.stepsSincePq) ||
      decide (o.ts.pqEveryMs ≤ (now : Time) - s.lastPqAt))) := by
  rw [Ratchet.pqDue, h.pqKey]
  cases hk : s.pqKey with
  | some k => rfl
  | none =>
      have hback' := hback hk
      rw [h.stepsSincePq, u32_of_lt (hsteps hk), Option.isNone_none, Bool.true_and, Bool.true_and,
        ← Bool.decide_or, ← Bool.decide_or, decide_eq_decide]
      rw [h.lastPqAt] at hback' ⊢
      show _ ↔ o.pqEverySteps.toNat ≤ s.stepsSincePq ∨
        ((o.pqEveryMs.toNat : Nat) : Int) ≤ (now : Int) - (r.lastPqAt : Int)
      have hback'' : s.stepsSincePq < o.pqEverySteps.toNat → o.pqEveryMs.toNat = 0 →
        (r.lastPqAt : Int) ≤ (now : Int) := hback'
      omega

/-- A fresh key is issued by both or by neither. -/
theorem Agrees.issue (h : Agrees r s) (hsteps : s.pqKey = none → s.stepsSincePq < 2 ^ 32) {now : Nat}
    (hback : s.pqKey = none → s.stepsSincePq < o.pqEverySteps.toNat → o.pqEveryMs.toNat = 0 →
      s.lastPqAt ≤ (now : Time)) (kemKey : S.KemKey) :
    Agrees (if r.pqDue o now then { r with pqKey := some kemKey } else r) (s.issuePqKey o.ts kemKey now) := by
  rw [h.pqDue hsteps hback, Eh2.Ratchet.issuePqKey]
  split
  · exact { h with pqKey := rfl }
  · exact h

theorem Agrees.openSendChain (h : Agrees r s) (hk : Kept o s) {newDh : S.Priv} (kemKey : S.KemKey) {now : Nat}
    {dh : S.Shared} (hdh : S.dh newDh s.dhPeerPub = some dh) (hback : ¬TurnedBack o s now) :
    Agrees (r.openSendChain X o newDh kemKey now)
      (s.openSendChain o.ts (encryptDraws newDh kemKey now) dh) := by
  have hX : X.dh newDh r.dhPeerPub = dh := by rw [h.dhPeerPub, X.dh_eq hdh]
  rw [Ratchet.openSendChain, Eh2.Ratchet.openSendChain]
  apply Agrees.issue
  · rw [Ratchet.stepRoot, Eh2.Ratchet.countStep, Eh2.Ratchet.rootIkm, h.pendingSs, hX, h.rk]
    cases hss : s.pendingSs with
    | some ss =>
        exact { h with
          rk := rfl, dhSelf := rfl, ckSend := rfl, nSend := rfl, pn := h.nSend, stepBeforeSend := rfl
          pendingSs := rfl, pendingCt := rfl, ctInFlight := h.pendingCt, stepsSincePq := rfl
          lastPqAt := rfl, pqStepsDone := by rw [h.pqStepsDone, u32_add_one] }
    | none =>
        exact { h with
          rk := rfl, dhSelf := rfl, ckSend := rfl, nSend := rfl, pn := h.nSend, stepBeforeSend := rfl
          pendingSs := rfl, stepsSincePq := by rw [h.stepsSincePq, u32_add_one] }
  · rw [Eh2.Ratchet.countStep]
    cases hss : s.pendingSs with
    | some ss => intro _; norm_num
    | none => exact hk.counting
  · rw [Eh2.Ratchet.countStep]
    cases hss : s.pendingSs with
    | some ss => intro _ _ _; exact Int.le_refl _
    | none =>
        intro hkey hlt hms
        by_contra hle
        exact hback ⟨hss, hkey, hlt, hms, Int.not_le.mp hle⟩

theorem Kept.openSendChain (hk : Kept o s) (d : Eh2.EncryptDraws S) (dh : S.Shared) :
    Kept o (s.openSendChain o.ts d dh) := by
  have hev : o.ts.pqEvery < 2 ^ 32 := o.pqEverySteps.toNat_lt
  rw [Eh2.Ratchet.openSendChain, Eh2.Ratchet.issuePqKey]
  split
  · refine ⟨fun h => ?_, fun _ => rfl, fun hz => ?_⟩
    · cases h
    · simpa using hk.noRoom hz
  · rename_i hdue
    refine ⟨fun h => ?_, fun _ => rfl, fun hz => ?_⟩
    · -- with no key outstanding, the steps counted are short of the cadence
      dsimp only at h
      simp only [h, Option.isNone_none, Bool.true_and, Bool.or_eq_true, decide_eq_true_eq, not_or] at hdue
      show (s.countStep d.pqAt).stepsSincePq + 1 < 2 ^ 32
      omega
    · simpa using hk.noRoom hz

theorem pqStepsDone_countStep (s : Eh2.Ratchet S) (now : Time) :
    (s.countStep now).pqStepsDone = if s.pendingSs.isSome then s.pqStepsDone + 1 else s.pqStepsDone := by
  rw [Eh2.Ratchet.countStep]
  cases s.pendingSs <;> rfl

/-- What sealing does to the counters. -/
theorem small_sealNext (role : Role) (me : S.Priv) (ck : S.Key) (pt : Bytes) :
    Small (s.sealNext role me ck pt).1 ↔
      s.nSend + 1 < 2 ^ 32 ∧ s.nRecv < 2 ^ 32 ∧ s.pqStepsDone < 2 ^ 32 :=
  ⟨fun h => ⟨h.nSend, h.nRecv, h.pqStepsDone⟩, fun h => ⟨h.1, h.2.1, h.2.2⟩⟩

theorem small_openSendChain (h : Small s) (d : Eh2.EncryptDraws S) (dh : S.Shared) :
    (s.openSendChain o.ts d dh).nSend + 1 < 2 ^ 32 ∧ (s.openSendChain o.ts d dh).nRecv < 2 ^ 32 ∧
        (s.openSendChain o.ts d dh).pqStepsDone < 2 ^ 32 ↔
      (s.pendingSs.isSome → s.pqStepsDone + 1 < 2 ^ 32) := by
  obtain ⟨pqKey, he, -⟩ := Eh2.Ratchet.openSendChain_eq (o := o.ts) s d dh
  have hdone := h.pqStepsDone
  simp only [he, Eh2.Ratchet.nRecv_countStep, h.nRecv, pqStepsDone_countStep, true_and]
  cases s.pendingSs.isSome
  · simp
    omega
  · simp

/-- With the clock turned back the one issues a key and the other does not. -/
theorem Agrees.turnedBack (h : Agrees r s) (newDh : S.Priv) (kemKey : S.KemKey) {now : Nat}
    (dh : S.Shared) (hback : TurnedBack o s now) :
    (r.openSendChain X o newDh kemKey now).pqKey = some kemKey ∧
      (s.openSendChain o.ts (encryptDraws newDh kemKey now) dh).pqKey = none := by
  obtain ⟨hss, hkey, hsteps, hms, hlt⟩ := hback
  constructor
  · rw [Ratchet.openSendChain, Ratchet.stepRoot, h.pendingSs, hss, Ratchet.pqDue]
    simp [h.pqKey, hkey, hms]
  · rw [Eh2.Ratchet.openSendChain, Eh2.Ratchet.issuePqKey, Eh2.Ratchet.countStep, hss]
    have hms' : o.ts.pqEveryMs = 0 := by
      show ((o.pqEveryMs.toNat : Nat) : Int) = 0
      rw [hms]
      rfl
    have hev : o.ts.pqEvery = o.pqEverySteps.toNat := rfl
    have hle : ¬s.lastPqAt ≤ (now : Time) := Int.not_le.mpr hlt
    have hst : ¬o.pqEverySteps.toNat ≤ s.stepsSincePq + 1 := by omega
    simp [hkey, hms', hev, encryptDraws, hst, hle]

/-- A sending chain that was opened has its key and the key of its header. -/
theorem openSendChain_sends (X : Dalek S) (o : RatchetOpts) (r : Ratchet S) (me : S.Priv) (kemKey : S.KemKey) (now : Nat) :
    ∃ ck, (r.openSendChain X o me kemKey now).dhSelf = some me ∧
      (r.openSendChain X o me kemKey now).ckSend = some ck := by
  rw [Ratchet.openSendChain]
  split <;> exact ⟨_, rfl, rfl⟩

theorem encrypt_of_step (me : S.Priv) (kemKey : S.KemKey) (now : Nat) (pt : Bytes)
    (hm : (r.stepBeforeSend || r.ckSend.isNone) = true) :
    ∃ ck, (r.openSendChain X o me kemKey now).ckSend = some ck ∧ r.encrypt X o me kemKey now pt =
      some ((r.openSendChain X o me kemKey now).sealNext me ck pt) := by
  obtain ⟨ck, hself, hck⟩ := openSendChain_sends X o r me kemKey now
  refine ⟨ck, hck, ?_⟩
  rw [Ratchet.encrypt, if_pos hm]
  simp only [hself, hck]

theorem encrypt_of_chain (me : S.Priv) {me' : S.Priv} {ck : S.Key} (kemKey : S.KemKey) (now : Nat) (pt : Bytes)
    (hm : (r.stepBeforeSend || r.ckSend.isNone) = false) (hme : r.dhSelf = some me') (hck : r.ckSend = some ck) :
    r.encrypt X o me kemKey now pt = some (r.sealNext me' ck pt) := by
  rw [Ratchet.encrypt, if_neg (by simp [hm])]
  simp only [hme, hck]

/-- A call of `encrypt` shows the same exactly when it is one the two answer alike, and leaves them alike. -/
theorem Agrees.encrypt (h : Agrees r s) (hs : Small s) (hk : Kept o s) (role : Role) (newDh : S.Priv)
    (kemKey : S.KemKey) (now : Nat) (pt : Bytes) :
    ((callCore X o opens r (.encrypt newDh kemKey now pt)).2
        = (callTs o opens role s (.encrypt newDh kemKey now pt)).2 ↔ EncryptOk o s newDh now) ∧
      (EncryptOk o s newDh now →
        Agrees (callCore X o opens r (.encrypt newDh kemKey now pt)).1
            (callTs o opens role s (.encrypt newDh kemKey now pt)).1 ∧
          Small (callTs o opens role s (.encrypt newDh kemKey now pt)).1 ∧
          Kept o (callTs o opens role s (.encrypt newDh kemKey now pt)).1) := by
  cases hm : s.mustStep with
  | false =>
      have hm' : (r.stepBeforeSend || r.ckSend.isNone) = false := by rw [h.mustStep, hm]
      obtain ⟨ck, hck⟩ : ∃ ck, s.ckSend = some ck := by
        simp only [Eh2.Ratchet.mustStep, Bool.or_eq_false_iff, Option.isNone_eq_false_iff] at hm
        exact Option.isSome_iff_exists.mp hm.2
      obtain ⟨me, hme⟩ := Option.isSome_iff_exists.mp (hk.sending (by simp [hck]))
      obtain ⟨hframe, hagree⟩ := h.sealNext role me ck pt
      have hcore := encrypt_of_chain (X := X) (o := o) newDh kemKey now pt hm' (h.dhSelf.trans hme) (h.ckSend.trans hck)
      have hts : s.encrypt o.ts role (encryptDraws newDh kemKey now) pt = _ :=
        Eh2.Ratchet.encrypt_of_chain hm hme hck
      have hsmall : Small (s.sealNext role me ck pt).1 ↔ s.nSend + 1 < 2 ^ 32 := by
        rw [small_sealNext]
        exact ⟨fun hh => hh.1, fun hh => ⟨hh, hs.nRecv, hs.pqStepsDone⟩⟩
      simp only [callCore, hcore, callTs, hts, Option.elim_some, EncryptOk, hm, Bool.false_eq_true, if_false,
        Prod.mk.injEq, hframe, true_and, hagree.stats, hsmall]
      intro hlt
      exact ⟨hagree, hlt, hk.counting, fun _ => hk.sending (by simp [hck]), hk.noRoom⟩
  | true =>
      have hm' : (r.stepBeforeSend || r.ckSend.isNone) = true := by rw [h.mustStep, hm]
      obtain ⟨ck, hck, hcore⟩ := encrypt_of_step (X := X) (o := o) newDh kemKey now pt hm'
      cases hdh : S.dh newDh s.dhPeerPub with
      | none =>
          have hts : (s.encrypt o.ts role (encryptDraws newDh kemKey now) pt).2 = none := by
            rw [Eh2.Ratchet.encrypt, if_pos hm]
            simp only [encryptDraws, hdh]
          simp [callCore, hcore, callTs, hts, EncryptOk, hm, hdh]
      | some dh =>
          have hts : s.encrypt o.ts role (encryptDraws newDh kemKey now) pt = _ :=
            Eh2.Ratchet.encrypt_of_step hm hdh
          have hk' := hk.openSendChain (encryptDraws newDh kemKey now) dh
          simp only [callCore, hcore, callTs, hts, Option.elim_some, EncryptOk, hm, if_true, hdh, ne_eq, reduceCtorEq,
            not_false_eq_true, true_and]
          by_cases hback : TurnedBack o s now
          · obtain ⟨hsome, hnone⟩ := h.turnedBack (X := X) newDh kemKey dh hback
            simp only [hback, not_true_eq_false, and_false, iff_false, false_imp_iff, and_true, Prod.mk.injEq, not_and]
            intro _ hstats
            have hout := congrArg Stats.pqOutstanding hstats
            simp [Ratchet.stats, Ratchet.sealNext, hsome, counters, Eh2.Ratchet.sealNext, hnone] at hout
          · have hopen := h.openSendChain (X := X) hk kemKey hdh hback
            obtain ⟨pqKey, he, -⟩ := Eh2.Ratchet.openSendChain_eq (o := o.ts) s (encryptDraws newDh kemKey now) dh
            have hck' : ck = (S.dhStep s.rk (s.rootIkm dh)).2 := by
              have hc := hopen.ckSend
              rw [hck, he] at hc
              exact Option.some.inj hc
            obtain ⟨hframe, hagree⟩ := hopen.sealNext role newDh ck pt
            have hself := hk'.sending (by rw [he]; rfl)
            rw [← hck']
            have hsmall := (small_sealNext (s := s.openSendChain o.ts (encryptDraws newDh kemKey now) dh) role newDh
              ck pt).trans (small_openSendChain hs _ _)
            simp only [encryptDraws] at hframe hagree hsmall hk' ⊢
            simp only [hframe, Prod.mk.injEq, true_and, hagree.stats, hsmall, hback, not_false_eq_true, and_true]
            intro hdone
            exact ⟨hagree, hdone, hk'.counting, fun _ => hself, hk'.noRoom⟩

/-! ## Receiving -/

theorem Agrees.prune (h : Agrees r s) (now : Nat) : Agrees (r.prune o now) (s.prune o.ts now) :=
  { h with skipped := h.skipped.prune }

theorem Kept.prune (hk : Kept o s) (now : Time) : Kept o (s.prune o.ts now) where
  counting := hk.counting
  sending := hk.sending
  noRoom hz := by simp [Eh2.Ratchet.prune, Eh2.SkippedKeys.prune, OrdMap.map, OrdMap.filter, hk.noRoom hz]

/-- The Rust side computes what the TypeScript side does, or ends as it does. -/
def Like {α : Type} (c : Except Ratchet.Stop α) : Except Refusal α → Prop
  | .ok a => c = .ok a
  | .error e => ∃ st, c = .error st ∧ ofStop st = ofRefusal e

/-- How the two open a frame: alike, if there is `room` for the keys passed over. A DH that throws is
left out. -/
def Matches (room : Prop) (c : Except Ratchet.Stop (Ratchet S × Bytes)) :
    Except Refusal (Eh2.Ratchet S × Bytes) → Prop
  | .ok (s', pt) => (room → ∃ r', c = .ok (r', pt) ∧ Agrees r' s') ∧ (¬room → c = .error .panic)
  | .error e => e = .dh ∨ ∃ st, c = .error st ∧ ofStop st = ofRefusal e

theorem Like.bind {α : Type} {room : Prop} {c : Except Ratchet.Stop α} {t : Except Refusal α}
    {fc : α → Except Ratchet.Stop (Ratchet S × Bytes)} {ft : α → Except Refusal (Eh2.Ratchet S × Bytes)}
    (h : Like c t) (hf : ∀ a, t = .ok a → Matches room (fc a) (ft a)) : Matches room (c >>= fc) (t >>= ft) := by
  cases t with
  | ok a =>
      rw [show c = .ok a from h]
      exact hf a rfl
  | error e =>
      obtain ⟨st, hc, he⟩ := h
      rw [hc]
      exact Or.inr ⟨st, rfl, he⟩

theorem advance_like (o : RatchetOpts) (ck : S.Key) (start stop : Nat) :
    Like (Ratchet.advance o ck start stop) (Eh2.Ratchet.advance o.ts ck start stop) := by
  unfold Ratchet.advance Eh2.Ratchet.advance
  have hms : o.ts.maxSkip = o.maxSkipPerChain.toNat := rfl
  rw [hms]
  split
  · exact ⟨_, rfl, rfl⟩
  · rfl

theorem tryOpen_like (opens : Open S) (key : S.Key) (header ct : Bytes) (n : Nat) :
    Like (Ratchet.tryOpen opens key header ct n) (Eh2.Ratchet.tryOpen opens key header ct n) := by
  unfold Ratchet.tryOpen Eh2.Ratchet.tryOpen
  cases opens key (S.aeadNonce key (Bytes.u32be n)) header ct with
  | some pt => rfl
  | none => exact ⟨_, rfl, rfl⟩

theorem Agrees.closeChain (h : Agrees r s) (hs : Small s) (hd : Header) :
    Like (r.closeChain o hd) (s.closeChain o.ts hd) := by
  unfold Ratchet.closeChain Eh2.Ratchet.closeChain
  rw [h.ckRecv, h.nRecv, u32_of_lt hs.nRecv]
  cases s.ckRecv with
  | none => rfl
  | some ck =>
      have ha := advance_like o ck s.nRecv hd.pn
      dsimp only
      cases ht : Eh2.Ratchet.advance o.ts ck s.nRecv hd.pn with
      | ok w =>
          rw [ht] at ha
          rw [show Ratchet.advance o ck s.nRecv hd.pn = .ok w from ha]
          rfl
      | error e =>
          rw [ht] at ha
          obtain ⟨st, hc, he⟩ := ha
          exact ⟨st, by rw [hc]; rfl, he⟩

/-- The keys a closing chain leaves are those up to the header's `pn`. -/
theorem length_closeChain {hd : Header} {closing : List S.Key} (hc : s.closeChain o.ts hd = .ok closing) :
    closing.length = if s.ckRecv.isSome then hd.pn - s.nRecv else 0 := by
  unfold Eh2.Ratchet.closeChain at hc
  cases hr : s.ckRecv with
  | none => rw [hr] at hc; cases hc; rfl
  | some ck =>
      simp only [hr] at hc
      cases ha : Eh2.Ratchet.advance o.ts ck s.nRecv hd.pn with
      | error e => rw [ha] at hc; cases hc
      | ok w =>
          rw [ha] at hc
          cases hc
          rw [← (Eh2.Ratchet.advance_ok.mp ha).2, KeyChain.length_walk]
          rfl

theorem Agrees.answerIkm (h : Agrees r s) (hd : Header) (dh : S.Shared) :
    Like (r.answerIkm hd dh) ((s.answerIkm hd dh).elim (.error .null) .ok) := by
  unfold Ratchet.answerIkm Eh2.Ratchet.answerIkm
  rw [h.pqKey]
  cases hd.pqCt with
  | none => rfl
  | some pqCt =>
      dsimp only
      cases s.pqKey.bind fun k => S.decapsulate k pqCt with
      | none => exact ⟨_, rfl, rfl⟩
      | some ss => rfl

theorem Agrees.chains_nil (h : Agrees r s) (hk : Kept o s) (hz : o.maxChainsBack = 0) : r.skipped.chains = [] := by
  have he := h.skipped
  rw [Skipped.Same, hk.noRoom hz] at he
  exact List.map_eq_nil_iff.mp he.symm

/-- The keys passed over are put by both, or there is no room and the index is out of bounds. -/
theorem hold_spec {sk : Skipped S.Key} {st : Eh2.SkippedKeys S.Key} (h : sk.Same st) (p : Pub) (start now : Nat)
    (keys : List S.Key) (hlt : start + keys.length ≤ 2 ^ 32)
    (hempty : o.maxChainsBack = 0 → sk.chains = []) :
    ((0 < o.maxChainsBack ∨ keys.length = 0) → ∃ sk', Ratchet.hold o p start now sk keys = .ok sk' ∧
        sk'.Same (Eh2.SkippedKeys.putAll o.maxChainsBack p (fun _ => now) st start keys)) ∧
      (¬(0 < o.maxChainsBack ∨ keys.length = 0) → Ratchet.hold o p start now sk keys = .error .panic) := by
  rw [Ratchet.hold]
  constructor
  · rintro (hmax | hnil)
    · obtain ⟨sk', hput, hsame⟩ := h.putAll hmax p start now (i := 0) (by omega : start + 0 + keys.length ≤ 2 ^ 32)
      exact ⟨sk', by rw [hput], hsame⟩
    · rw [List.length_eq_zero_iff] at hnil
      subst hnil
      exact ⟨sk, rfl, h⟩
  · intro hno
    obtain ⟨hmax, hne⟩ := not_or.mp hno
    have hz : o.maxChainsBack = 0 := by omega
    obtain ⟨k, ks, rfl⟩ := List.exists_cons_of_length_pos (Nat.pos_of_ne_zero hne)
    rw [hz, Skipped.putAll_no_room (hempty hz)]

theorem Agrees.openSameChain (h : Agrees r s) (hs : Small s) (hk : Kept o s) (opens : Open S) (coins : S.Coins)
    (now : Nat) (ck : S.Key) {hd : Header} (hn : hd.n < 2 ^ 32) (header ct : Bytes) :
    Matches (0 < o.maxChainsBack ∨ hd.n - s.nRecv = 0) (r.openSameChain o opens now ck hd header ct)
      (s.openSameChain o.ts opens (decryptDraws coins now) ck hd header ct) := by
  rw [Ratchet.openSameChain, Eh2.Ratchet.openSameChain, h.nRecv, u32_of_lt hs.nRecv]
  split
  · exact Or.inr ⟨_, rfl, rfl⟩
  apply (advance_like o ck s.nRecv hd.n).bind
  intro w hw
  apply (tryOpen_like ..).bind
  intro pt _
  have hlen : w.1.length = hd.n - s.nRecv := by
    rw [← (Eh2.Ratchet.advance_ok.mp hw).2, KeyChain.length_walk]
  obtain ⟨hroom, hno⟩ := hold_spec (o := o) h.skipped hd.dhPub s.nRecv now w.1 (by omega)
    (h.chains_nil hk)
  rw [hlen] at hroom hno
  refine ⟨fun hr => ?_, fun hr => ?_⟩
  · obtain ⟨sk', hput, hsame⟩ := hroom hr
    rw [hput]
    exact ⟨_, rfl, { h with
      skipped := hsame, ckRecv := rfl, nRecv := rfl }⟩
  · rw [hno hr]
    rfl

theorem Agrees.openTurned (h : Agrees r s) (hs : Small s) (hk : Kept o s) (opens : Open S) (coins : S.Coins)
    (now : Nat) {hd : Header} (hn : hd.n < 2 ^ 32) (hpn : hd.pn < 2 ^ 32) (header ct : Bytes) :
    Matches (0 < o.maxChainsBack ∨ (if s.ckRecv.isSome then hd.pn - s.nRecv else 0) + hd.n = 0)
      (r.openTurned X o opens now hd header ct)
      (s.openTurned o.ts opens (decryptDraws coins now) hd header ct) := by
  rw [Ratchet.openTurned, Eh2.Ratchet.openTurned, h.dhSelf, h.pqKey]
  cases s.dhSelf with
  | none => exact Or.inr ⟨_, rfl, rfl⟩
  | some me =>
      dsimp only
      by_cases hg : (hd.pqCt.isSome && s.pqKey.isNone) = true
      · rw [if_pos hg, if_pos hg]
        exact Or.inr ⟨_, rfl, rfl⟩
      rw [if_neg hg, if_neg hg]
      apply (h.closeChain hs hd).bind
      intro closing hclosing
      cases hdh : S.dh me hd.dhPub with
      | none => exact Or.inl rfl
      | some dh =>
          rw [X.dh_eq hdh]
          apply (h.answerIkm hd dh).bind
          intro ikm _
          rw [h.rk]
          apply (advance_like ..).bind
          intro w hw
          apply (tryOpen_like ..).bind
          intro pt _
          rw [← length_closeChain hclosing]
          have hlen : w.1.length = hd.n := by
            rw [← (Eh2.Ratchet.advance_ok.mp hw).2, KeyChain.length_walk, Nat.sub_zero]
          have hcl : closing.length ≤ hd.pn - s.nRecv := by
            rw [length_closeChain hclosing]
            split <;> omega
          have hrecv := hs.nRecv
          obtain ⟨hroom, hno⟩ := hold_spec (o := o) h.skipped s.dhPeerPub s.nRecv now closing
            (by omega) (h.chains_nil hk)
          rw [h.dhPeerPub, h.nRecv, u32_of_lt hrecv]
          by_cases hc : 0 < o.maxChainsBack ∨ closing.length = 0
          · obtain ⟨sk₁, hput, hsame⟩ := hroom hc
            have hempty : o.maxChainsBack = 0 → sk₁.chains = [] := by
              intro hz
              obtain rfl : closing = [] := List.length_eq_zero_iff.mp (hc.resolve_left (by omega))
              cases hput
              exact h.chains_nil hk hz
            obtain ⟨hroom', hno'⟩ := hold_spec (o := o) hsame hd.dhPub 0 now w.1 (by omega)
              hempty
            rw [hlen] at hroom' hno'
            rw [hput]
            refine ⟨fun hr => ?_, fun hr => ?_⟩
            · obtain ⟨sk₂, hput', hsame'⟩ := hroom' (hr.imp_right fun he => by omega)
              simp only [bind, Except.bind, hput']
              cases hct : hd.pqCt.isSome with
              | true =>
                  refine ⟨_, rfl, ?_⟩
                  rw [Eh2.Ratchet.countAnswer, if_pos hct]
                  exact { h with
                    rk := rfl, dhSelf := rfl, dhPeerPub := rfl, ckRecv := rfl, nRecv := rfl, stepBeforeSend := rfl
                    skipped := hsame', pqKey := rfl, ctInFlight := rfl, stepsSincePq := rfl, lastPqAt := rfl
                    pqStepsDone := by rw [h.pqStepsDone, u32_add_one] }
              | false =>
                  refine ⟨_, rfl, ?_⟩
                  rw [Eh2.Ratchet.countAnswer, if_neg (by simp [hct])]
                  exact { h with
                    rk := rfl, dhSelf := rfl, dhPeerPub := rfl, ckRecv := rfl, nRecv := rfl, stepBeforeSend := rfl
                    skipped := hsame', pqKey := rfl, ctInFlight := rfl }
            · have hne : ¬(0 < o.maxChainsBack ∨ hd.n = 0) := by omega
              simp only [bind, Except.bind, hno' hne]
          · rw [hno hc]
            refine ⟨fun hr => ?_, fun _ => rfl⟩
            omega

/-- There is room for what the frame passes over. -/
def Room (o : RatchetOpts) (s : Eh2.Ratchet S) (hd : Header) : Prop :=
  s.skipped.peek hd.dhPub hd.n = none → 0 < o.maxChainsBack ∨ passedOver s hd = 0

theorem Matches.mono {room room' : Prop} (hiff : room ↔ room') {c : Except Ratchet.Stop (Ratchet S × Bytes)}
    {t : Except Refusal (Eh2.Ratchet S × Bytes)} (h : Matches room c t) : Matches room' c t := by
  rwa [← propext hiff]

theorem Agrees.openFrame (h : Agrees r s) (hs : Small s) (hk : Kept o s) (opens : Open S) (coins : S.Coins)
    (now : Nat) {hd : Header} (hn : hd.n < 2 ^ 32) (hpn : hd.pn < 2 ^ 32) (header ct : Bytes) :
    Matches (Room o s hd) (r.openFrame X o opens now hd header ct)
      (s.openFrame o.ts opens (decryptDraws coins now) hd header ct) := by
  rw [Ratchet.openFrame, Eh2.Ratchet.openFrame, h.skipped.peek]
  cases hp : s.skipped.peek hd.dhPub hd.n with
  | some key =>
      apply (tryOpen_like ..).bind
      intro pt _
      refine ⟨fun _ => ⟨_, rfl, { h with skipped := h.skipped.dropKey .. }⟩, fun hr => ?_⟩
      exact absurd (fun hnone => by rw [hp] at hnone; cases hnone) hr
  | none =>
      dsimp only
      rw [h.dhPeerPub]
      by_cases hd' : hd.dhPub = s.dhPeerPub
      · rw [if_pos hd', if_pos hd', h.ckRecv]
        cases s.ckRecv with
        | none => exact Or.inr ⟨_, rfl, rfl⟩
        | some ck =>
            apply (h.openSameChain hs hk opens coins now ck hn header ct).mono
            rw [Room, passedOver, if_pos hd']
            exact ⟨fun hr _ => hr, fun hr => hr hp⟩
      · rw [if_neg hd', if_neg hd']
        apply (h.openTurned hs hk opens coins now hn hpn header ct).mono
        rw [Room, passedOver, if_neg hd']
        exact ⟨fun hr _ => hr, fun hr => hr hp⟩

/-- An encapsulation key that is accepted is noted by both; one that is not, by neither. -/
theorem Agrees.note (h : Agrees r s) (coins : S.Coins) (p : Option Bytes) :
    (∀ s', s.notePeerPqPub coins p = some s' → Agrees (r.notePeerPqPub p coins) s') ∧
      (s.notePeerPqPub coins p = none → Agrees (r.notePeerPqPub p coins) s) := by
  unfold Ratchet.notePeerPqPub Eh2.Ratchet.notePeerPqPub
  cases p with
  | none => exact ⟨fun s' he => by cases he; exact h, fun he => by cases he⟩
  | some p =>
      dsimp only
      rw [h.seenPeerPqPub]
      by_cases hseen : s.seenPeerPqPub = some p
      · rw [if_pos hseen, if_pos hseen]
        exact ⟨fun s' he => by cases he; exact h, fun he => by cases he⟩
      · rw [if_neg hseen, if_neg hseen]
        cases S.encapsulate p coins with
        | none => exact ⟨fun s' he => (by cases he), fun _ => h⟩
        | some cs =>
            refine ⟨fun s' he => ?_, fun he => by cases he⟩
            cases he
            exact { h with pendingSs := rfl, pendingCt := rfl, seenPeerPqPub := rfl }

section
variable {d : Eh2.DecryptDraws S} {hd : Header} {header ct pt : Bytes} {s' : Eh2.Ratchet S}

theorem tryOpen_ne_dh (key : S.Key) (n : Nat) : Eh2.Ratchet.tryOpen opens key header ct n ≠ .error .dh := by
  unfold Eh2.Ratchet.tryOpen
  split <;> simp

theorem advance_ne_dh (ck : S.Key) (start stop : Nat) : Eh2.Ratchet.advance o.ts ck start stop ≠ .error .dh := by
  unfold Eh2.Ratchet.advance
  split <;> simp

theorem closeChain_ne_dh : s.closeChain o.ts hd ≠ .error .dh := by
  unfold Eh2.Ratchet.closeChain
  cases s.ckRecv with
  | none => simp
  | some ck =>
      have hadv := advance_ne_dh (o := o) ck s.nRecv hd.pn
      dsimp only
      cases ha : Eh2.Ratchet.advance o.ts ck s.nRecv hd.pn with
      | ok w => simp [Except.map]
      | error e =>
          rw [ha] at hadv
          simpa [Except.map] using hadv

/-- The frame that turns throws on X25519 exactly if it gets as far as that. -/
theorem openTurned_dh : s.openTurned o.ts opens d hd header ct = .error .dh ↔
    (hd.pqCt.isSome && s.pqKey.isNone) = false ∧ (∃ closing, s.closeChain o.ts hd = .ok closing) ∧
      ∃ me, s.dhSelf = some me ∧ S.dh me hd.dhPub = none := by
  rw [Eh2.Ratchet.openTurned]
  cases hme : s.dhSelf with
  | none => simp
  | some me =>
      dsimp only
      cases hg : hd.pqCt.isSome && s.pqKey.isNone with
      | true => simp
      | false =>
          simp only [Bool.false_eq_true, if_false, bind_error, closeChain_ne_dh, advance_ne_dh, tryOpen_ne_dh, false_or,
            pure, Except.pure, reduceCtorEq, and_false, exists_false, or_false, true_and, Option.some.injEq,
            exists_eq_left']
          constructor
          · rintro ⟨closing, hcl, hdh | ⟨dh, _, hikm⟩⟩
            · refine ⟨⟨closing, hcl⟩, ?_⟩
              cases hS : S.dh me hd.dhPub with
              | none => rfl
              | some dh => rw [hS] at hdh; cases hdh
            · cases hI : s.answerIkm hd dh <;> rw [hI] at hikm <;> cases hikm
          · rintro ⟨⟨closing, hcl⟩, hnone⟩
            exact ⟨closing, hcl, Or.inl (by rw [hnone]; rfl)⟩

/-- The call that throws on X25519 is one whose frame gets as far as the DH. -/
theorem openFrame_dh (opens : Open S) (d : Eh2.DecryptDraws S) (header ct : Bytes) : s.openFrame o.ts opens d hd header ct = .error .dh ↔
    Turns o s hd ∧ ∃ me, s.dhSelf = some me ∧ S.dh me hd.dhPub = none := by
  rw [Eh2.Ratchet.openFrame]
  cases hp : s.skipped.peek hd.dhPub hd.n with
  | some key =>
      simp only [bind_error, tryOpen_ne_dh, false_or, pure, Except.pure, reduceCtorEq, and_false, exists_false, Turns,
        hp, false_and]
  | none =>
      dsimp only
      by_cases hpeer : hd.dhPub = s.dhPeerPub
      · rw [if_pos hpeer]
        refine iff_of_false ?_ fun ht => ht.1.2.1 hpeer
        cases s.ckRecv with
        | none => simp
        | some ck =>
            simp only [Eh2.Ratchet.openSameChain]
            split
            · simp
            · simp only [bind_error, advance_ne_dh, tryOpen_ne_dh, false_or, pure, Except.pure, reduceCtorEq,
                and_false, exists_false, not_false_eq_true]
      · rw [if_neg hpeer, openTurned_dh, Turns]
        constructor
        · rintro ⟨hg, hcl, hdh⟩
          exact ⟨⟨hp, hpeer, hg, hcl⟩, hdh⟩
        · rintro ⟨⟨-, -, hg, hcl⟩, hdh⟩
          exact ⟨hg, hcl, hdh⟩

theorem small_of_opens (hop : s.Opens o.ts opens d hd header ct s' pt) (hs : Small s) :
    Small s' ↔ (s.skipped.peek hd.dhPub hd.n = none →
      hd.n + 1 < 2 ^ 32 ∧ (hd.dhPub ≠ s.dhPeerPub → hd.pqCt.isSome → s.pqStepsDone + 1 < 2 ^ 32)) := by
  cases hop with
  | stashed hp =>
      rw [hp]
      exact ⟨fun _ hnone => (by cases hnone), fun _ => ⟨hs.nSend, hs.nRecv, hs.pqStepsDone⟩⟩
  | same hp hpeer =>
      constructor
      · intro hs' _
        exact ⟨hs'.nRecv, fun hne => absurd hpeer hne⟩
      · intro hr
        exact ⟨hs.nSend, (hr hp).1, hs.pqStepsDone⟩
  | turned hp hpeer =>
      rw [Eh2.Ratchet.countAnswer]
      cases hct : hd.pqCt.isSome with
      | true =>
          constructor
          · intro hs' _
            exact ⟨hs'.nRecv, fun _ _ => hs'.pqStepsDone⟩
          · intro hr
            exact ⟨hs.nSend, (hr hp).1, (hr hp).2 hpeer rfl⟩
      | false =>
          constructor
          · intro hs' _
            exact ⟨hs'.nRecv, fun _ hf => by cases hf⟩
          · intro hr
            exact ⟨hs.nSend, (hr hp).1, hs.pqStepsDone⟩

theorem kept_of_opens (hop : s.Opens o.ts opens d hd header ct s' pt) (hk : Kept o s) (hroom : Room o s hd) :
    Kept o s' := by
  cases hop with
  | stashed hp =>
      refine ⟨hk.counting, hk.sending, fun hz => ?_⟩
      have hempty : s.skipped.chains.get hd.dhPub = none := by simp [OrdMap.get, hk.noRoom hz]
      simp only [Eh2.SkippedKeys.drop, hempty]
      exact hk.noRoom hz
  | same hp hpeer =>
      refine ⟨hk.counting, hk.sending, fun hz => ?_⟩
      have hnone := (hroom hp).resolve_left (by omega)
      rw [passedOver, if_pos hpeer] at hnone
      simp only [Eh2.Ratchet.afterSame, hnone, KeyChain.walk, Eh2.SkippedKeys.putAll]
      exact hk.noRoom hz
  | @turned _ _ ikm closing _ hp hpeer _ hcl =>
      have hroom' := hroom hp
      rw [passedOver, if_neg hpeer, ← length_closeChain hcl] at hroom'
      have hno : o.maxChainsBack = 0 →
          (Eh2.Ratchet.afterTurn o.ts s d hd closing ikm).skipped.chains.entries = [] := by
        intro hz
        obtain ⟨hcl', hn⟩ : closing = [] ∧ hd.n = 0 := by
          have := hroom'.resolve_left (by omega)
          exact ⟨List.length_eq_zero_iff.mp (by omega), by omega⟩
        simp only [Eh2.Ratchet.afterTurn, hcl', hn, KeyChain.walk, Eh2.SkippedKeys.putAll]
        exact hk.noRoom hz
      rw [Eh2.Ratchet.countAnswer]
      split
      · exact ⟨fun _ => show 0 + 1 < 2 ^ 32 by norm_num, hk.sending, hno⟩
      · exact ⟨hk.counting, hk.sending, hno⟩

/-- For a frame that opens, what is left of the condition. -/
theorem decryptOk_of_opens {coins : S.Coins} {now len : Nat} {frame : Bytes} {s₁ : Eh2.Ratchet S}
    (hdec : Eh2.decodeHeader frame = some (hd, len))
    (hop : (s.prune o.ts now).Opens o.ts opens (decryptDraws coins now) hd (frame.take len) (frame.drop len) s₁ pt) :
    DecryptOk o opens s coins now frame ↔
      s₁.notePeerPqPub coins hd.pqPub ≠ none ∧ InRange o (s.prune o.ts now) hd := by
  obtain ⟨key, hsel, hpt⟩ := hop.selects
  constructor
  · intro hok
    refine ⟨fun hnote => ?_, hok.inRange hd len key pt hdec hsel hpt⟩
    obtain ⟨p, hp, hseen, hkem⟩ := Eh2.Ratchet.notePeerPqPub_none.mp hnote
    rw [hop.seenPeerPqPub] at hseen
    exact hok.pqPub ⟨hd, len, key, pt, p, hdec, hsel, hpt, hp, hseen, hkem⟩
  · rintro ⟨hnote, hrange⟩
    refine ⟨fun h' len' me hdec' ht hme hnone => ?_, ?_, fun h' len' key' pt' hdec' _ _ => ?_⟩
    · rw [hdec] at hdec'
      cases hdec'
      have herr := (openFrame_dh opens (decryptDraws coins now) (frame.take len) (frame.drop len)).mpr
        ⟨ht, me, hme, hnone⟩
      rw [Eh2.Ratchet.openFrame_ok.mpr hop] at herr
      cases herr
    · rintro ⟨h', len', key', pt', p, hdec', -, -, hp, hseen, hkem⟩
      rw [hdec] at hdec'
      cases hdec'
      apply hnote
      apply Eh2.Ratchet.notePeerPqPub_none.mpr
      exact ⟨p, hp, by rw [hop.seenPeerPqPub]; exact hseen, hkem⟩
    · rw [hdec] at hdec'
      cases hdec'
      exact hrange

/-- A frame the TypeScript ratchet refuses is one the two answer alike, unless X25519 throws. -/
theorem decryptOk_of_error {coins : S.Coins} {now len : Nat} {frame : Bytes} {e : Refusal}
    (hdec : Eh2.decodeHeader frame = some (hd, len))
    (he : (s.prune o.ts now).openFrame o.ts opens (decryptDraws coins now) hd (frame.take len) (frame.drop len)
      = .error e) :
    DecryptOk o opens s coins now frame ↔ e ≠ .dh := by
  have hnot : ∀ h' len' key' pt', Eh2.decodeHeader frame = some (h', len') →
      Eh2.Ratchet.Selects o.ts (s.prune o.ts now) h' key' →
      ¬Eh2.Ratchet.OpensAt opens key' h'.n (frame.take len') (frame.drop len') pt' := by
    intro h' len' key' pt' hdec' hsel hpt
    rw [hdec] at hdec'
    cases hdec'
    obtain ⟨s₁, hop⟩ := hsel.toOpens (d := decryptDraws coins now) hpt
    rw [Eh2.Ratchet.openFrame_ok.mpr hop] at he
    cases he
  constructor
  · rintro hok rfl
    obtain ⟨ht, me, hme, hnone⟩ := (openFrame_dh ..).mp he
    exact hok.dh hd len me hdec ht hme hnone
  · intro hne
    refine ⟨fun h' len' me hdec' ht hme hnone => ?_, ?_, fun h' len' key' pt' hdec' hsel hpt => ?_⟩
    · rw [hdec] at hdec'
      cases hdec'
      have herr := (openFrame_dh opens (decryptDraws coins now) (frame.take len) (frame.drop len)).mpr
        ⟨ht, me, hme, hnone⟩
      rw [he] at herr
      exact hne (Except.error.inj herr)
    · rintro ⟨h', len', key', pt', p, hdec', hsel, hpt, -⟩
      exact hnot h' len' key' pt' hdec' hsel hpt
    · exact absurd hpt (hnot h' len' key' pt' hdec' hsel)

end

theorem small_of_note {coins : S.Coins} {p : Option Bytes} (hnote : s.notePeerPqPub coins p = some s') :
    Small s' ↔ Small s := by
  rcases Eh2.Ratchet.notePeerPqPub_eq hnote with rfl | ⟨_, _, _, -, -, -, rfl⟩
  · rfl
  · exact ⟨fun h => ⟨h.nSend, h.nRecv, h.pqStepsDone⟩, fun h => ⟨h.nSend, h.nRecv, h.pqStepsDone⟩⟩

theorem kept_of_note {coins : S.Coins} {p : Option Bytes} (hnote : s.notePeerPqPub coins p = some s')
    (hk : Kept o s) : Kept o s' := by
  rcases Eh2.Ratchet.notePeerPqPub_eq hnote with rfl | ⟨_, _, _, -, -, -, rfl⟩
  · exact hk
  · exact ⟨hk.counting, hk.sending, hk.noRoom⟩

/-- A call of `decrypt` shows the same exactly when it is one the two answer alike, and leaves them alike. -/
theorem Agrees.decrypt (h : Agrees r s) (hs : Small s) (hk : Kept o s) (role : Role) (coins : S.Coins)
    (now : Nat) (frame : Bytes) :
    ((callCore X o opens r (.decrypt coins now frame)).2
        = (callTs o opens role s (.decrypt coins now frame)).2 ↔ DecryptOk o opens s coins now frame) ∧
      (DecryptOk o opens s coins now frame →
        Agrees (callCore X o opens r (.decrypt coins now frame)).1
            (callTs o opens role s (.decrypt coins now frame)).1 ∧
          Small (callTs o opens role s (.decrypt coins now frame)).1 ∧
          Kept o (callTs o opens role s (.decrypt coins now frame)).1) := by
  have hcore := decodeHeader_eq frame
  cases hdec : Eh2.decodeHeader frame with
  | none =>
      have hok : DecryptOk o opens s coins now frame := by
        refine ⟨fun h' len' me hdec' => ?_, ?_, fun h' len' key pt hdec' => ?_⟩
        · rw [hdec] at hdec'; cases hdec'
        · rintro ⟨h', len', -, -, -, hdec', -⟩
          rw [hdec] at hdec'; cases hdec'
        · rw [hdec] at hdec'; cases hdec'
      rw [hdec] at hcore
      simp only [callCore, Ratchet.decrypt, hcore, callTs, Eh2.Ratchet.decrypt, hdec, ofStop, ofRefusal,
        h.stats.mpr hs, hok, true_imp_iff]
      exact ⟨trivial, h, hs, hk⟩
  | some hl =>
      obtain ⟨hd, len⟩ := hl
      rw [hdec] at hcore
      obtain ⟨hn, hpn⟩ := decodeHeader_counters hdec
      have h₀ := h.prune (o := o) now
      have hs₀ : Small (s.prune o.ts now) := ⟨hs.nSend, hs.nRecv, hs.pqStepsDone⟩
      have hk₀ := hk.prune now
      have hm := h₀.openFrame (X := X) hs₀ hk₀ opens coins now hn hpn (frame.take len) (frame.drop len)
      have hat : (decryptDraws coins now).pruneAt = (now : Int) := rfl
      have hdraws : (decryptDraws coins now).coins = coins := rfl
      simp only [callCore, Ratchet.decrypt, hcore, callTs, Eh2.Ratchet.decrypt, hdec, hat, hdraws]
      cases hopen : (s.prune o.ts now).openFrame o.ts opens (decryptDraws coins now) hd (frame.take len)
          (frame.drop len) with
      | error e =>
          rw [decryptOk_of_error hdec hopen]
          rw [hopen] at hm
          obtain rfl | ⟨st, hcore', he⟩ := hm
          · -- nothing on the Rust side throws
            cases (r.prune o now).openFrame X o opens now hd (frame.take len) (frame.drop len) with
            | error st => cases st <;> simp [ofStop, ofRefusal]
            | ok rp => simp [ofRefusal]
          · simp only [hcore', he, h₀.stats.mpr hs₀, true_iff]
            have hne : e ≠ .dh := by
              rintro rfl
              cases st <;> cases he
            exact ⟨hne, fun _ => ⟨h₀, hs₀, hk₀⟩⟩
      | ok sp =>
          obtain ⟨s₁, pt⟩ := sp
          have hop := Eh2.Ratchet.openFrame_ok.mp hopen
          rw [decryptOk_of_opens hdec hop]
          rw [hopen] at hm
          by_cases hroom : Room o (s.prune o.ts now) hd
          · obtain ⟨r₁, hcore', h₁⟩ := hm.1 hroom
            rw [hcore']
            dsimp only
            cases hnote : s₁.notePeerPqPub coins hd.pqPub with
            | none => simp [ofRefusal]
            | some s₂ =>
                have h₂ := (h₁.note coins hd.pqPub).1 s₂ hnote
                have hrange : Small s₂ ↔ InRange o (s.prune o.ts now) hd := by
                  rw [small_of_note hnote, small_of_opens hop hs₀]
                  constructor
                  · intro hr hp
                    exact ⟨(hr hp).1, (hr hp).2, hroom hp⟩
                  · intro hr hp
                    exact ⟨(hr hp).1, (hr hp).2.1⟩
                simp only [Prod.mk.injEq, true_and, h₂.stats, hrange, ne_eq, reduceCtorEq, not_false_eq_true]
                exact fun hr => ⟨h₂, hr, kept_of_note hnote (kept_of_opens hop hk₀ hroom)⟩
          · rw [hm.2 hroom]
            have hno : ¬InRange o (s.prune o.ts now) hd := fun hr => hroom fun hp => (hr hp).2.2
            cases hnote : s₁.notePeerPqPub coins hd.pqPub <;> simp [hno, hnote, ofStop, ofRefusal]

/-! ## Whole runs -/

theorem Agrees.call (h : Agrees r s) (hs : Small s) (hk : Kept o s) (role : Role) (c : Call S) :
    ((callCore X o opens r c).2 = (callTs o opens role s c).2 ↔ CallOk o opens s c) ∧
      (CallOk o opens s c → Agrees (callCore X o opens r c).1 (callTs o opens role s c).1 ∧
        Small (callTs o opens role s c).1 ∧ Kept o (callTs o opens role s c).1) := by
  cases c with
  | encrypt newDh kemKey now pt => exact h.encrypt hs hk role newDh kemKey now pt
  | decrypt coins now frame => exact h.decrypt hs hk role coins now frame

/-- From one handshake, with the same options, draws and clock readings, the two ratchets show the same
frames, outcomes and counters exactly when every call is one the two answer alike. -/
theorem equivalent_iff (X : Dalek S) (o : RatchetOpts) (opens : Open S) (hs : HandshakeResult S)
    (hself : hs.role = .initiator → hs.ekSelf.isSome) (now : Nat) (cs : List (Call S)) :
    outputs (callCore X o opens) (Ratchet.fromHandshake hs now) cs
        = outputs (callTs o opens hs.role) (Eh2.ratchetFrom hs now) cs ↔
      Admits (fun s c => (callTs o opens hs.role s c).1) (CallOk o opens) (Eh2.ratchetFrom hs now) cs := by
  apply outputs_eq_iff (R := fun r s => Agrees r s ∧ Small s ∧ Kept o s)
  · intro r s c hR
    exact (hR.1.call hR.2.1 hR.2.2 hs.role c).1
  · intro r s c hR
    exact (hR.1.call hR.2.1 hR.2.2 hs.role c).2
  · exact ⟨Agrees.start hs now, Small.start hs now, Kept.start hs hself now⟩

/-! ## Two calls that tell them apart, and a run that does not -/

namespace Symbolic

open EncedoChat.Eh2.Symbolic (suite badOffer)

def dalek : Dalek suite where
  dh a p := Eh2.Symbolic.sorted a (p.1.getD 0 0)
  dh_eq {k p d} h := by
    have h' : Eh2.Symbolic.dh k p = some d := h
    simp only [Eh2.Symbolic.dh] at h'
    split at h'
    · exact Option.some.inj h'
    · cases h'

def responder : HandshakeResult suite := ⟨.responder, .secret 0, none, Eh2.Symbolic.pub 1, (1, 2)⟩

def initiator : HandshakeResult suite :=
  ⟨.initiator, .secret 0, some (1 : UInt8), Eh2.Symbolic.pub 2, (1, 2)⟩

/-- Nobody sealed it, and its key is 32 zero bytes. -/
def forged : Bytes := Eh2.encodeHeader ⟨⟨List.replicate 32 0, rfl⟩, 0, 0, none, none⟩ ++ List.replicate 16 0

/-- An authentic frame whose encapsulation key is malformed throws here and opens there; a forged one with
a key of small order throws here and is refused there. -/
theorem told_apart :
    outputs (callCore dalek {} (Eh2.openIn [badOffer])) (Ratchet.fromHandshake responder 0)
          [.decrypt (0 : UInt8) 0 badOffer.frame]
        ≠ outputs (callTs {} (Eh2.openIn [badOffer]) responder.role) (Eh2.ratchetFrom responder 0)
          [.decrypt (0 : UInt8) 0 badOffer.frame] ∧
      outputs (callCore dalek {} (Eh2.openIn [])) (Ratchet.fromHandshake initiator 0)
          [.decrypt (0 : UInt8) 0 forged]
        ≠ outputs (callTs {} (Eh2.openIn []) initiator.role) (Eh2.ratchetFrom initiator 0)
          [.decrypt (0 : UInt8) 0 forged] := by
  decide

/-- The initiator's first frame, offering an encapsulation key. -/
def offer : Eh2.Sealed suite :=
  let mk : Eh2.Symbolic.Key := .message (.chain (.secret 0) (.classical (1, 2)))
  let header := Eh2.encodeHeader ⟨Eh2.Symbolic.pub 1, 0, 0, none, some [7]⟩
  ⟨⟨mk, Bytes.u32be 0, header, suite.aeadSeal mk (Bytes.u32be 0) header [42], [42]⟩, .initiator⟩

/-- The responder opens the offer, answers it, and refuses its replay. -/
def answered : List (Call suite) :=
  [.decrypt (4 : UInt8) 10 offer.frame, .encrypt (2 : UInt8) (9 : UInt8) 20 [1, 2], .decrypt (5 : UInt8) 30 offer.frame]

theorem answered_alike :
    Admits (fun s c => (callTs {} (Eh2.openIn [offer]) responder.role s c).1) (CallOk {} (Eh2.openIn [offer]))
      (Eh2.ratchetFrom responder 0) answered :=
  (equivalent_iff dalek {} (Eh2.openIn [offer]) responder (by decide) 0 answered).mp (by decide)

end Symbolic

end EncedoChat.Core
