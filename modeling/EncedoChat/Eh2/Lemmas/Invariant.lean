import EncedoChat.Eh2.Lemmas.Receiving

/-!
# The invariant of a session
-/

namespace EncedoChat.Eh2

variable {S : Suite} {o : Opts} {s s' : Ratchet S} {X : Role} {cs : List (Chain S)}

/-! ## What a position depends on -/

def Ratchet.place (s : Ratchet S) :=
  (s.dhSelf, s.dhPeerPub, s.rk, s.ckSend, s.ckRecv, s.nSend, s.nRecv, s.pn, s.stepBeforeSend, s.ctInFlight)

theorem Front.of_place {c : Chain S} (h : s'.place = s.place) (hf : Front s c cs) : Front s' c cs := by
  simp only [Ratchet.place, Prod.mk.injEq] at h
  obtain ⟨h1, h2, h3, h4, h5, h6, h7, h8, h9, h10⟩ := h
  exact ⟨h1 ▸ hf.dhSelf, h2 ▸ hf.dhPeerPub, h3 ▸ hf.rk, by rw [h4, h6]; exact hf.ckSend,
    by rw [h5, h7]; exact hf.ckRecv, h9 ▸ hf.step, h8 ▸ hf.pn, h10 ▸ hf.ct⟩

theorem Back.of_place {c : Chain S} (h : s'.place = s.place) (hb : Back s c cs) : Back s' c cs := by
  simp only [Ratchet.place, Prod.mk.injEq] at h
  obtain ⟨h1, h2, h3, -, h5, -, h7, -, h9, h10⟩ := h
  exact ⟨h1 ▸ hb.dhSelf, h2 ▸ hb.dhPeerPub, h3 ▸ hb.rk, by rw [h5, h7]; exact hb.ckRecv, h9 ▸ hb.step,
    h10 ▸ hb.ct⟩

theorem Stands.of_place (h : s'.place = s.place) (hs : Stands s X cs) : Stands s' X cs := by
  cases hs with
  | newest hX hf => exact .newest hX (hf.of_place h)
  | level hX hb => exact .level hX (hb.of_place h)
  | behind hX hf => exact .behind hX (hf.of_place h)

theorem Passed.of_place {c : Chain S} {n : Nat} (h : s'.place = s.place) (hp : Passed s c n) : Passed s' c n := by
  simp only [Ratchet.place, Prod.mk.injEq] at h
  obtain ⟨h1, h2, -, -, -, -, h7, -⟩ := h
  exact hp.of_eq h2 h1 (by omega)

theorem place_note {coins : S.Coins} {p : Option Bytes} (h : Ratchet.notePeerPqPub s coins p = some s') :
    s'.place = s.place ∧ s'.skipped = s.skipped := by
  rcases Ratchet.notePeerPqPub_eq h with rfl | ⟨_, _, _, -, -, -, rfl⟩
  · exact ⟨rfl, rfl⟩
  · exact ⟨rfl, rfl⟩

theorem Front.same {c : Chain S} {d : DecryptDraws S} {h : Header} {ck : S.Key} (hck : s.ckRecv = some ck)
    (hle : s.nRecv ≤ h.n) (hf : Front s c cs) : Front (Ratchet.afterSame o s d h ck) c cs := by
  have hr := hf.ckRecv
  refine ⟨hf.dhSelf, hf.dhPeerPub, hf.rk, hf.ckSend, ?_, hf.step, hf.pn, hf.ct⟩
  cases cs with
  | nil => rw [hck] at hr; cases hr
  | cons b bs =>
      rw [hck] at hr
      cases hr
      simp only [Ratchet.afterSame, List.head?_cons, Option.map_some, KeyChain.chainAt_add]
      rw [show s.nRecv + (h.n - s.nRecv + 1) = h.n + 1 by omega]

theorem Back.same {c : Chain S} {d : DecryptDraws S} {h : Header} {ck : S.Key} (hck : s.ckRecv = some ck)
    (hle : s.nRecv ≤ h.n) (hb : Back s c cs) : Back (Ratchet.afterSame o s d h ck) c cs := by
  have hr := hb.ckRecv
  rw [hck] at hr
  cases hr
  refine ⟨hb.dhSelf, hb.dhPeerPub, hb.rk, ?_, hb.step, hb.ct⟩
  simp only [Ratchet.afterSame, KeyChain.chainAt_add]
  rw [show s.nRecv + (h.n - s.nRecv + 1) = h.n + 1 by omega]

theorem Stands.same {d : DecryptDraws S} {h : Header} {ck : S.Key} (hck : s.ckRecv = some ck)
    (hle : s.nRecv ≤ h.n) (hs : Stands s X cs) : Stands (Ratchet.afterSame o s d h ck) X cs := by
  cases hs with
  | newest hX hf => exact .newest hX (hf.same hck hle)
  | level hX hb => exact .level hX (hb.same hck hle)
  | behind hX hf => exact .behind hX (hf.same hck hle)

/-- The peer's step, made with the same secret, brings the side level. -/
theorem Front.turned {b c : Chain S} {d : DecryptDraws S} {h : Header} {closing : List S.Key}
    (hl : Linked (b :: c :: cs)) (hf : Front s c cs) (hX : X = b.owner.other) (hpub : h.dhPub = S.pub b.key) :
    Stands (Ratchet.countAnswer (Ratchet.afterTurn o s d h closing b.ikm) h d.pqAt) X (b :: c :: cs) := by
  obtain ⟨_, _, _, heq⟩ := Ratchet.countAnswer_eq (Ratchet.afterTurn o s d h closing b.ikm) h d.pqAt
  have hrk : s.rk = b.salt := by rw [hf.rk, hl.salt]
  rw [heq]
  refine .level hX ⟨hf.dhSelf, hpub, ?_, ?_, rfl, rfl⟩
  · show (S.dhStep s.rk b.ikm).1 = b.rk
    rw [hrk, Chain.rk]
  · show some (S.chain.chainAt (S.dhStep s.rk b.ikm).2 (h.n + 1)) = some (S.chain.chainAt b.ck (h.n + 1))
    rw [hrk, Chain.ck]

/-! ## What one opened frame does to a side -/

/-- What opened stands in the log, and its header says where on which chain. -/
theorem OpensAt.logged (I : S.Ideal) {log seen : List (Sealed S)}
    (hlog : ∀ e ∈ log, ∃ c ∈ cs, ∃ n, Logged e c n) (hseen : seen ⊆ log) {frame pt : Bytes} {h : Header}
    {len : Nat} (hd : decodeHeader frame = some (h, len)) {mk : S.Key}
    (hopen : Ratchet.OpensAt (openIn seen) mk h.n (frame.take len) (frame.drop len) pt) :
    ∃ c ∈ cs, ∃ n, ∃ e ∈ log, Logged e c n ∧ mk = S.chain.keyAt c.ck n ∧ e.frame = frame ∧ e.pt = pt ∧
      h.dhPub = S.pub c.key := by
  obtain ⟨e, he, ⟨hk, -, haad, hct⟩, hpt⟩ := openIn_eq_some hopen
  obtain ⟨c, hc, n, hle⟩ := hlog e (hseen he)
  obtain ⟨hpub, -⟩ := hle.header_eq I hd haad
  have hframe : e.frame = frame := by rw [Sealed.frame, haad, hct, List.take_append_drop]
  exact ⟨c, hc, n, e, hseen he, hle, by rw [← hk, hle.key], hframe, hpt, hpub⟩

/-- An opened frame is a logged one, opened for the first time. -/
theorem Ratchet.Opens.receipt (I : S.Ideal) (hl : Linked cs) (hs : Stands s X cs) (hst : Stored s X cs)
    {log seen : List (Sealed S)} (hlog : ∀ e ∈ log, ∃ c ∈ cs, ∃ n, Logged e c n) (hseen : seen ⊆ log)
    {d : DecryptDraws S} {frame pt : Bytes} {h : Header} {len : Nat} (hd : decodeHeader frame = some (h, len))
    (hop : Ratchet.Opens o (openIn seen) s d h (frame.take len) (frame.drop len) s' pt) :
    ∃ c, Receipt s s' X cs h c ∧ Stands s' X cs ∧
      ∃ e ∈ log, Logged e c h.n ∧ e.frame = frame ∧ e.pt = pt := by
  cases hop with
  | stashed hp hopen =>
      obtain ⟨c, hc, n, e, he, hle, hmk, hframe, hpt, -⟩ := OpensAt.logged I hlog hseen hd hopen
      obtain ⟨b, hr, hmk'⟩ := receipt_stashed hst hp
      obtain ⟨rfl, hn⟩ := hl.keyAt_inj I hr.mem hc (hmk' ▸ hmk)
      exact ⟨b, hr, Stands.of_place (s := s) rfl hs, e, he, hn ▸ hle, hframe, hpt⟩
  | same hp hdp hck hge hsk hopen =>
      obtain ⟨c, hc, n, e, he, hle, hmk, hframe, hpt, -⟩ := OpensAt.logged I hlog hseen hd hopen
      obtain ⟨b, hr, hmk'⟩ := receipt_same hl hs hp hdp hck hge
      obtain ⟨rfl, hn⟩ := hl.keyAt_inj I hr.mem hc (hmk'.symm.trans hmk)
      exact ⟨b, hr, hs.same hck hge, e, he, hn ▸ hle, hframe, hpt⟩
  | @turned self dh ikm closing _ hp hne hself hclose hdh hans hsk hopen =>
      obtain ⟨c, hc, n, e, he, hle, hmk, hframe, hpt, hpub⟩ := OpensAt.logged I hlog hseen hd hopen
      obtain ⟨hrk, hikm, hn⟩ := I.keyAt_inj hmk
      have hck : (S.dhStep s.rk ikm).2 = c.ck := by rw [hrk, hikm, Chain.ck]
      obtain ⟨hr, b, ds, rfl, hX, hf⟩ :=
        receipt_turned I hl hs hc hpub hikm hck hp hne hself hclose hdh hans
      exact ⟨c, hr, hikm ▸ hf.turned hl hX hpub, e, he, hn ▸ hle, hframe, hpt⟩

/-- What opening leaves of the sending half. -/
theorem Ratchet.Opens.sending {opens : Open S} {d : DecryptDraws S} {h : Header} {header ct pt : Bytes}
    (hop : Ratchet.Opens o opens s d h header ct s' pt) :
    s'.dhSelf = s.dhSelf ∧ s'.nSend = s.nSend ∧ s'.pendingSs = s.pendingSs ∧ s'.pendingCt = s.pendingCt := by
  cases hop with
  | stashed => exact ⟨rfl, rfl, rfl, rfl⟩
  | same => exact ⟨rfl, rfl, rfl, rfl⟩
  | @turned self dh ikm closing =>
      obtain ⟨_, _, _, he⟩ := Ratchet.countAnswer_eq (Ratchet.afterTurn o s d h closing ikm) h d.pqAt
      rw [he]
      exact ⟨rfl, rfl, rfl, rfl⟩

/-! ## The chain a side opens -/

/-- The chain that a side opens when it is next to send. -/
def nextChain (s : Ratchet S) (X : Role) (partner : S.Priv) (d : EncryptDraws S) (dh : S.Shared) : Chain S :=
  ⟨X, d.newDh, partner, s.rk, s.rootIkm dh, s.nSend, (s.countStep d.pqAt).ctInFlight⟩

@[simp] theorem nextChain_key (s : Ratchet S) (X : Role) (partner : S.Priv) (d : EncryptDraws S)
    (dh : S.Shared) : (nextChain s X partner d dh).key = d.newDh := rfl

theorem Front.encrypt {c : Chain S} (hf : Front s c cs) {d : EncryptDraws S} {pt : Bytes} :
    Ratchet.encrypt o X s d pt =
      let r := Ratchet.sealNext X s c.key (S.chain.chainAt c.ck s.nSend) pt
      (r.1, some r.2) := by
  have hm : s.mustStep = false := by simp [Ratchet.mustStep, hf.step, hf.ckSend]
  exact Ratchet.encrypt_of_chain hm hf.dhSelf hf.ckSend

theorem Back.openChain {c : Chain S} {ds : List (Chain S)} (hb : Back s c ds) {d : EncryptDraws S}
    {dh : S.Shared} :
    Front (Ratchet.openSendChain o s d dh) (nextChain s X c.key d dh) (c :: ds) := by
  obtain ⟨pqKey, he, -⟩ := Ratchet.openSendChain_eq (o := o) s d dh
  rw [he]
  refine ⟨rfl, ?_, rfl, rfl, ?_, rfl, rfl, rfl⟩
  · exact (Ratchet.dhPeerPub_countStep ..).trans hb.dhPeerPub
  · simp only [Ratchet.ckRecv_countStep, Ratchet.nRecv_countStep, List.head?_cons, Option.map_some, hb.ckRecv]

@[simp] theorem nSend_openSendChain (o : Opts) (s : Ratchet S) (d : EncryptDraws S) (dh : S.Shared) :
    (Ratchet.openSendChain o s d dh).nSend = 0 := by
  obtain ⟨pqKey, he, -⟩ := Ratchet.openSendChain_eq (o := o) s d dh
  rw [he]

theorem openSendChain_keeps (o : Opts) (s : Ratchet S) (d : EncryptDraws S) (dh : S.Shared) :
    let s' := Ratchet.openSendChain o s d dh
    s'.dhSelf = some d.newDh ∧ s'.dhPeerPub = s.dhPeerPub ∧ s'.nRecv = s.nRecv ∧ s'.skipped = s.skipped ∧
      s'.seenPeerPqPub = s.seenPeerPqPub ∧ (FieldOk s.pendingCt → FieldOk s'.pendingCt) ∧
      (∀ k, s.pqKey = some k → s'.pqKey = some k) := by
  obtain ⟨pqKey, he, hk⟩ := Ratchet.openSendChain_eq (o := o) s d dh
  rw [he]
  refine ⟨rfl, by simp, by simp, by simp, by simp, ?_, hk⟩
  intro hf
  show FieldOk (s.countStep d.pqAt).pendingCt
  rw [Ratchet.pendingCt_countStep]
  split
  · exact fieldOk_none
  · exact hf

/-! ## The invariant -/

/-- Message `n` of `c` is behind the side and not set aside: it cannot open again. -/
def Behind (s : Ratchet S) (c : Chain S) (n : Nat) : Prop :=
  Passed s c n ∧ s.skipped.entry (S.pub c.key) n = none

/-- The plaintext handed out is that of a frame the other side sealed, and cannot open again. -/
def Handed (s : Ratchet S) (log : List (Sealed S)) (cs : List (Chain S)) (q : Opened) : Prop :=
  ∃ e ∈ log, ∃ c ∈ cs, ∃ h len, decodeHeader q.frame = some (h, len) ∧ Logged e c h.n ∧
    e.frame = q.frame ∧ e.pt = q.pt ∧ c.owner = q.receiver.other ∧ h.dhPub = S.pub c.key ∧ Behind s c h.n

structure Inv (w : World S) (cs : List (Chain S)) : Prop where
  linked : Linked cs
  stands : ∀ X, Stands (w.side X) X cs
  drawn : ∀ c ∈ cs, S.pub c.key ∈ w.drawn ∧ S.pub c.partner ∈ w.drawn
  pending : ∀ X, FieldOk (w.side X).pendingCt
  cts : ∀ c ∈ cs, FieldOk c.ct
  log : ∀ e ∈ w.sealed, ∃ c ∈ cs, ∃ n, Logged e c n
  sent : ∀ e ∈ w.sealed, ∀ c ∈ cs, ∀ n, Logged e c n → ∀ k, (w.side c.owner).dhSelf = some k →
    S.pub k = S.pub c.key → n < (w.side c.owner).nSend
  keys : (w.sealed.map (·.key)).Nodup
  stored : ∀ X, Stored (w.side X) X cs
  opened : ∀ q ∈ w.opened, Handed (w.side q.receiver) w.sealed cs q
  once : (w.opened.map fun q => (q.receiver, q.frame)).Nodup

theorem Inv.start (hs : Session S) (now : Role → Time) : Inv (World.start hs now)
    [⟨.initiator, hs.ekI, hs.ekR, hs.sk, .classical hs.firstStepIkm, 0, none⟩] where
  linked := .first rfl hs.distinct hs.agreed
  stands X := by
    cases X with
    | initiator => exact .newest rfl ⟨rfl, rfl, rfl, rfl, rfl, rfl, rfl, rfl⟩
    | responder => exact .level rfl ⟨rfl, rfl, rfl, rfl, rfl, rfl⟩
  drawn c hc := by
    rw [List.mem_singleton] at hc
    subst hc
    exact ⟨List.mem_cons_self .., List.mem_cons_of_mem _ (List.mem_cons_self ..)⟩
  pending X := by cases X <;> exact fieldOk_none
  cts c hc := by
    rw [List.mem_singleton] at hc
    subst hc
    exact fieldOk_none
  log e he := by cases he
  sent e he := by cases he
  keys := List.nodup_nil
  stored X p n e he := by cases X <;> cases he
  opened q hq := by cases hq
  once := List.nodup_nil

section
variable {w : World S} (hi : Inv w cs)
include hi

/-- One side receives: it keeps its place in the session, and what is behind it stays behind. -/
theorem Inv.receive (expired : List (Role × Pub × Nat)) (hstands : Stands s' X cs) (hstored : Stored s' X cs)
    (hpending : FieldOk s'.pendingCt) (hself : s'.dhSelf = (w.side X).dhSelf)
    (hsend : s'.nSend = (w.side X).nSend)
    (honward : ∀ b ∈ cs, b.owner = X.other → ∀ n, Behind (w.side X) b n → Behind s' b n) :
    Inv { w with side := Function.update w.side X s', expired := expired } cs where
  linked := hi.linked
  stands Y := by
    by_cases hY : Y = X
    · subst hY; simpa using hstands
    · simpa [hY] using hi.stands Y
  drawn := hi.drawn
  pending Y := by
    by_cases hY : Y = X
    · subst hY; simpa using hpending
    · simpa [hY] using hi.pending Y
  cts := hi.cts
  log := hi.log
  sent e he c hc n hle k hk hp := by
    by_cases hY : c.owner = X
    · subst hY
      simp only [Function.update_self] at hk ⊢
      rw [hsend]
      exact hi.sent e he c hc n hle k (by rw [← hself, hk]) hp
    · simp only [Function.update_of_ne hY] at hk ⊢
      exact hi.sent e he c hc n hle k hk hp
  keys := hi.keys
  stored Y := by
    by_cases hY : Y = X
    · subst hY; simpa using hstored
    · simpa [hY] using hi.stored Y
  opened q hq := by
    obtain ⟨e, he, c, hc, h, len, hd, hle, hf, hpt, ho, hp, hb⟩ := hi.opened q hq
    refine ⟨e, he, c, hc, h, len, hd, hle, hf, hpt, ho, hp, ?_⟩
    by_cases hY : q.receiver = X
    · subst hY
      simpa using honward c hc ho h.n hb
    · simpa [Function.update_of_ne hY] using hb
  once := hi.once

theorem Inv.handOut {q : Opened} (hq : Handed (w.side q.receiver) w.sealed cs q)
    (hnew : (q.receiver, q.frame) ∉ w.opened.map fun q => (q.receiver, q.frame)) :
    Inv { w with opened := q :: w.opened } cs :=
  { hi with
    opened := fun q' hq' => by
      rcases List.mem_cons.mp hq' with rfl | hq'
      · exact hq
      · exact hi.opened q' hq'
    once := List.nodup_cons.mpr ⟨hnew, hi.once⟩ }

theorem Inv.draw (p : Pub) : Inv { w with drawn := p :: w.drawn } cs :=
  { hi with drawn := fun c hc => ⟨List.mem_cons_of_mem _ (hi.drawn c hc).1,
      List.mem_cons_of_mem _ (hi.drawn c hc).2⟩ }

/-! ## Sealing -/

/-- The side sends on `c`. -/
theorem Inv.sealOn (I : S.Ideal) {c : Chain S} {ds : List (Chain S)} (hc : c ∈ cs) (hX : c.owner = X)
    (hf : Front (w.side X) c ds) (pt : Bytes) :
    let r := Ratchet.sealNext X (w.side X) c.key (S.chain.chainAt c.ck (w.side X).nSend) pt
    Inv { w with side := Function.update w.side X r.1, sealed := r.2 :: w.sealed } cs ∧
      Logged r.2 c (w.side X).nSend := by
  intro r
  have hlogged : Logged r.2 c (w.side X).nSend := {
    sender := hX.symm
    key := rfl
    nonce := rfl
    header := ⟨(w.side X).pqKey, by simp only [r, Ratchet.sealNext, Ratchet.nextHeader, hf.pn, hf.ct]⟩
    ct := hi.cts c hc
    tag := I.tag _ _ _ _ }
  have hold : ∀ e ∈ w.sealed, e.key ≠ r.2.key := by
    intro e he hk
    obtain ⟨b, hb, n, hle⟩ := hi.log e he
    obtain ⟨rfl, rfl⟩ := hi.linked.keyAt_inj I hb hc (hle.key.symm.trans (hk.trans hlogged.key))
    have hlt := hi.sent e he b hb _ hle b.key (hX ▸ hf.dhSelf) rfl
    rw [hX] at hlt
    omega
  refine ⟨?_, hlogged⟩
  exact {
    linked := hi.linked
    stands := fun Y => by
      by_cases hY : Y = X
      · subst hY
        have hnext : S.chain.chainNext (S.chain.chainAt c.ck (w.side Y).nSend)
            = S.chain.chainAt c.ck ((w.side Y).nSend + 1) := (KeyChain.chainAt_succ ..).symm
        have hf' : ∀ {b bs}, Front (w.side Y) b bs → Front r.1 b bs := by
          intro b bs hb
          refine ⟨hb.dhSelf, hb.dhPeerPub, hb.rk, ?_, hb.ckRecv, hb.step, hb.pn, hb.ct⟩
          have hbc := hb.ckSend.symm.trans hf.ckSend
          simp only [r, Ratchet.sealNext, KeyChain.chainAt_succ, Option.some.injEq] at hbc ⊢
          rw [hbc]
        simp only [Function.update_self]
        cases hi.stands Y with
        | newest hY hb => exact .newest hY (hf' hb)
        | level hY hb => exact .level hY ⟨hb.dhSelf, hb.dhPeerPub, hb.rk, hb.ckRecv, hb.step, hb.ct⟩
        | behind hY hb => exact .behind hY (hf' hb)
      · simpa [hY] using hi.stands Y
    drawn := hi.drawn
    pending := fun Y => by
      by_cases hY : Y = X
      · subst hY; simp only [Function.update_self]; exact hi.pending Y
      · simpa [hY] using hi.pending Y
    cts := hi.cts
    log := fun e he => by
      rcases List.mem_cons.mp he with rfl | he
      · exact ⟨c, hc, _, hlogged⟩
      · exact hi.log e he
    sent := fun e he b hb n hle k hk hp => by
      rcases List.mem_cons.mp he with rfl | he
      · obtain ⟨rfl, rfl⟩ := hi.linked.keyAt_inj I hb hc (hle.key.symm.trans hlogged.key)
        subst hX
        simp only [Function.update_self]
        exact Nat.lt_succ_self _
      · by_cases hY : b.owner = X
        · simp only [hY, Function.update_self] at hk ⊢
          have := hi.sent e he b hb n hle k (hY ▸ hk) hp
          rw [hY] at this
          exact Nat.lt_succ_of_lt this
        · simp only [Function.update_of_ne hY] at hk ⊢
          exact hi.sent e he b hb n hle k hk hp
    keys := by
      rw [List.map_cons, List.nodup_cons, List.mem_map]
      refine ⟨?_, hi.keys⟩
      rintro ⟨e, he, hk⟩
      exact hold e he hk
    stored := fun Y => by
      by_cases hY : Y = X
      · subst hY; simp only [Function.update_self]; exact hi.stored Y
      · simpa [hY] using hi.stored Y
    opened := fun q hq => by
      obtain ⟨e, he, b, hb, h, len, hd, hle, hfr, hpt, ho, hp, hbh⟩ := hi.opened q hq
      refine ⟨e, List.mem_cons_of_mem _ he, b, hb, h, len, hd, hle, hfr, hpt, ho, hp, ?_⟩
      by_cases hY : q.receiver = X
      · subst hY; simp only [Function.update_self]; exact hbh
      · simpa [Function.update_of_ne hY] using hbh
    once := hi.once }

theorem Inv.openChain (I : S.Ideal) {c : Chain S} {ds : List (Chain S)} (hcs : cs = c :: ds)
    (hX : X = c.owner.other) (hb : Back (w.side X) c ds) {d : EncryptDraws S}
    (hfresh : S.pub d.newDh ∉ w.drawn) {dh : S.Shared}
    (hdh : S.dh d.newDh (w.side X).dhPeerPub = some dh) :
    Inv { w with
      side := Function.update w.side X (Ratchet.openSendChain o (w.side X) d dh)
      drawn := S.pub d.newDh :: w.drawn } (nextChain (w.side X) X c.key d dh :: cs) := by
  subst hcs
  obtain ⟨hself, hpeer, hnRecv, hskip, -, hpend, -⟩ := openSendChain_keeps o (w.side X) d dh
  have hne : ∀ b ∈ c :: ds, S.pub d.newDh ≠ S.pub b.key ∧ S.pub d.newDh ≠ S.pub b.partner := by
    intro b hbm
    exact ⟨fun h => hfresh (h ▸ (hi.drawn b hbm).1), fun h => hfresh (h ▸ (hi.drawn b hbm).2)⟩
  have hlinked : Linked (nextChain (w.side X) X c.key d dh :: c :: ds) := by
    refine .next hi.linked hX rfl hb.rk ?_ hne
    show S.dh d.newDh (S.pub c.key) = some ((w.side X).rootIkm dh).dh
    rw [← hb.dhPeerPub, hdh]
    unfold Ratchet.rootIkm
    split <;> rfl
  have hpassed : ∀ b ∈ c :: ds, ∀ n, Passed (w.side X) b n →
      Passed (Ratchet.openSendChain o (w.side X) d dh) b n := by
    intro b hbm n hp
    unfold Passed at hp ⊢
    rw [hpeer, hnRecv, hself]
    split
    · rename_i h; rwa [if_pos h] at hp
    · intro k hk
      cases hk
      exact (hne b hbm).2
  exact {
    linked := hlinked
    stands := fun Y => by
      by_cases hY : Y = X
      · subst hY
        simp only [Function.update_self]
        exact .newest rfl hb.openChain
      · simp only [Function.update_of_ne hY]
        have hYc : Y = c.owner := by
          rcases Role.eq_or_eq_other Y X with h | h
          · exact absurd h hY
          · rw [h, hX, Role.other_other]
        cases hi.stands Y with
        | newest _ hf => exact .behind (by rw [hYc, show (nextChain (w.side X) X c.key d dh).owner = X from rfl,
            hX, Role.other_other]) hf
        | level hY' _ => rw [hYc] at hY'; exact absurd hY' (Role.ne_other _)
        | behind hY' _ => rw [hYc] at hY'; exact absurd hY' (Role.ne_other _)
    drawn := fun b hbm => by
      rcases List.mem_cons.mp hbm with rfl | hbm
      · exact ⟨List.mem_cons_self .., List.mem_cons_of_mem _ (hi.drawn c (List.mem_cons_self ..)).1⟩
      · exact ⟨List.mem_cons_of_mem _ (hi.drawn b hbm).1, List.mem_cons_of_mem _ (hi.drawn b hbm).2⟩
    pending := fun Y => by
      by_cases hY : Y = X
      · subst hY; simpa using hpend (hi.pending Y)
      · simpa [hY] using hi.pending Y
    cts := fun b hbm => by
      rcases List.mem_cons.mp hbm with rfl | hbm
      · show FieldOk ((w.side X).countStep d.pqAt).ctInFlight
        rw [Ratchet.ctInFlight_countStep]
        split
        · exact hi.pending X
        · rw [hb.ct]; exact fieldOk_none
      · exact hi.cts b hbm
    log := fun e he => by
      obtain ⟨b, hbm, n, hle⟩ := hi.log e he
      exact ⟨b, List.mem_cons_of_mem _ hbm, n, hle⟩
    sent := fun e he b hbm n hle k hk hp => by
      -- nothing is sealed on the new chain yet
      obtain ⟨b', hbm', n', hle'⟩ := hi.log e he
      obtain ⟨rfl, rfl⟩ := hlinked.keyAt_inj I hbm (List.mem_cons_of_mem _ hbm') (hle.key.symm.trans hle'.key)
      by_cases hY : b.owner = X
      · simp only [hY, Function.update_self, hself, Option.some.injEq] at hk
        rw [← hk] at hp
        exact absurd hp (hne b hbm').1
      · simp only [Function.update_of_ne hY] at hk ⊢
        exact hi.sent e he b hbm' n hle k hk hp
    keys := hi.keys
    stored := fun Y p n e he => by
      by_cases hY : Y = X
      · subst hY
        simp only [Function.update_self, hskip] at he ⊢
        obtain ⟨b, hbm, ho, hp, hk, hpass⟩ := hi.stored Y p n e he
        exact ⟨b, List.mem_cons_of_mem _ hbm, ho, hp, hk, hpassed b hbm n hpass⟩
      · simp only [Function.update_of_ne hY] at he ⊢
        obtain ⟨b, hbm, h⟩ := hi.stored Y p n e he
        exact ⟨b, List.mem_cons_of_mem _ hbm, h⟩
    opened := fun q hq => by
      obtain ⟨e, he, b, hbm, h, len, hd, hle, hfr, hpt, ho, hp, hbh⟩ := hi.opened q hq
      refine ⟨e, he, b, List.mem_cons_of_mem _ hbm, h, len, hd, hle, hfr, hpt, ho, hp, ?_⟩
      by_cases hY : q.receiver = X
      · subst hY
        simp only [Function.update_self]
        exact ⟨hpassed b hbm _ hbh.1, by rw [hskip]; exact hbh.2⟩
      · simpa [Function.update_of_ne hY] using hbh
    once := hi.once }

/-! ## One call -/

/-- A call that sends seals on the side's chain, or opens the next chain first. -/
theorem Inv.encrypt_cases (I : S.Ideal) (X : Role) (d : EncryptDraws S) (pt : Bytes) :
    (∃ c ds, c ∈ cs ∧ c.owner = X ∧ Front (w.side X) c ds ∧
      (w.side X).encrypt o X d pt =
        let r := Ratchet.sealNext X (w.side X) c.key (S.chain.chainAt c.ck (w.side X).nSend) pt
        (r.1, some r.2)) ∨
    (∃ c ds dh, cs = c :: ds ∧ X = c.owner.other ∧ Back (w.side X) c ds ∧
      S.dh d.newDh (w.side X).dhPeerPub = some dh ∧
      (w.side X).encrypt o X d pt =
        let s := Ratchet.openSendChain o (w.side X) d dh
        let r := Ratchet.sealNext X s d.newDh (nextChain (w.side X) X c.key d dh).ck pt
        (r.1, some r.2)) := by
  cases hi.stands X with
  | @newest c ds hX hf => exact Or.inl ⟨c, ds, List.mem_cons_self .., hX.symm, hf, hf.encrypt⟩
  | @behind c b ds hX hf =>
      refine Or.inl ⟨b, ds, List.mem_cons_of_mem _ (List.mem_cons_self ..), ?_, hf, hf.encrypt⟩
      rw [hX, hi.linked.owner, Role.other_other]
  | @level c ds hX hb =>
      obtain ⟨dh, hdh⟩ := Option.isSome_iff_exists.mp (I.dh_some d.newDh c.key)
      rw [← hb.dhPeerPub] at hdh
      have hm : (w.side X).mustStep = true := by simp [Ratchet.mustStep, hb.step]
      exact Or.inr ⟨c, ds, dh, rfl, hX, hb, hdh, Ratchet.encrypt_of_step hm hdh⟩

theorem Inv.encrypt (I : S.Ideal) (X : Role) (d : EncryptDraws S) (pt : Bytes)
    (hfresh : S.pub d.newDh ∉ w.drawn) : ∃ cs', Inv (w.act o (.encrypt X d pt)) cs' := by
  rcases hi.encrypt_cases (o := o) I X d pt with ⟨c, ds, hc, hX, hf, he⟩ | ⟨c, ds, dh, hcs, hX, hb, hdh, he⟩
  · refine ⟨cs, ?_⟩
    have h := ((hi.sealOn I hc hX hf pt).1).draw (S.pub d.newDh)
    simpa only [World.act, he, Option.toList_some, List.singleton_append] using h
  · refine ⟨nextChain (w.side X) X c.key d dh :: cs, ?_⟩
    have h₁ := hi.openChain (o := o) I hcs hX hb hfresh hdh
    have hf : Front (Function.update w.side X (Ratchet.openSendChain o (w.side X) d dh) X)
        (nextChain (w.side X) X c.key d dh) (c :: ds) := by
      simp only [Function.update_self]
      exact hb.openChain
    have ho : (nextChain (w.side X) X c.key d dh).owner = X := rfl
    have h₂ := (h₁.sealOn I (List.mem_cons_self ..) ho hf pt).1
    simpa only [World.act, he, Option.toList_some, List.singleton_append, Function.update_self,
      Function.update_idem, nSend_openSendChain, KeyChain.chainAt_zero, nextChain_key] using h₂

omit hi in
theorem Stored.prune {now : Time} (hst : Stored s X cs) : Stored (s.prune o now) X cs := by
  intro p n e he
  exact hst p n e (SkippedKeys.entry_prune.mp he).1

omit hi in
theorem Behind.prune {c : Chain S} {n : Nat} {now : Time} (hb : Behind s c n) : Behind (s.prune o now) c n := by
  refine ⟨hb.1, ?_⟩
  cases he : (s.prune o now).skipped.entry (S.pub c.key) n with
  | none => rfl
  | some e =>
      have hold := (SkippedKeys.entry_prune.mp he).1
      rw [hb.2] at hold
      cases hold

omit hi in
theorem Receipt.behind {h : Header} {c : Chain S} (hr : Receipt s s' X cs h c) : Behind s' c h.n :=
  ⟨hr.passed, by rw [← hr.dhPub]; exact hr.gone⟩

omit hi in
theorem Receipt.not_behind {h : Header} {c : Chain S} (hr : Receipt s s' X cs h c) : ¬Behind s c h.n := by
  intro hb
  obtain ⟨e, he⟩ := hr.first hb.1
  rw [hr.dhPub, hb.2] at he
  cases he

omit hi in
theorem Behind.note {c : Chain S} {n : Nat} {coins : S.Coins} {p : Option Bytes}
    (hn : Ratchet.notePeerPqPub s coins p = some s') (hb : Behind s c n) : Behind s' c n :=
  ⟨hb.1.of_place (place_note hn).1, by rw [(place_note hn).2]; exact hb.2⟩

/-- A call that receives changes nothing but expired keys, or hands out a logged frame for the first
time. The peer's encapsulation keys are never refused. -/
theorem Inv.decrypt_cases (I : S.Ideal) (o : Opts) (X : Role) (d : DecryptDraws S) {seen : List (Sealed S)}
    (hseen : seen ⊆ w.sealed) (frame : Bytes) :
    (∃ r s', (w.side X).decrypt o (openIn seen) d frame = (s', .error r) ∧
      (s' = w.side X ∨ s' = (w.side X).prune o d.pruneAt ∧ (decodeHeader frame).isNone = false)) ∨
    (∃ h len c s₁ s₂ pt, decodeHeader frame = some (h, len) ∧
      Ratchet.Opens o (openIn seen) ((w.side X).prune o d.pruneAt) d h (frame.take len) (frame.drop len) s₁ pt ∧
      Receipt ((w.side X).prune o d.pruneAt) s₁ X cs h c ∧ Stands s₁ X cs ∧
      (∃ e ∈ w.sealed, Logged e c h.n ∧ e.frame = frame ∧ e.pt = pt) ∧
      Ratchet.notePeerPqPub s₁ d.coins h.pqPub = some s₂ ∧
      (w.side X).decrypt o (openIn seen) d frame = (s₂, .ok pt)) := by
  rcases Ratchet.decrypt_cases o (openIn seen) (w.side X) d frame with ⟨r, he, -⟩ | ⟨h, len, r, hd, -, he⟩ |
    ⟨h, len, s₁, pt, hd, hop, hn⟩
  · exact Or.inl ⟨r, _, he, Or.inl rfl⟩
  · exact Or.inl ⟨r, _, he, Or.inr ⟨rfl, by rw [hd]; rfl⟩⟩
  · have hst : Stands ((w.side X).prune o d.pruneAt) X cs := Stands.of_place (s := w.side X) rfl (hi.stands X)
    obtain ⟨c, hr, hstands, e, he, hle, hf, hpt⟩ :=
      hop.receipt I hi.linked hst (hi.stored X).prune hi.log hseen hd
    rcases hn with ⟨hnone, -⟩ | ⟨s₂, hnote, hdec⟩
    · obtain ⟨p, hp, -, hkem⟩ := Ratchet.notePeerPqPub_none.mp hnone
      obtain ⟨h', hd', -, -, -, -, kem, hkp⟩ := hle.decodes I
      rw [hf, hd] at hd'
      cases hd'
      cases kem with
      | none => rw [hp] at hkp; cases hkp
      | some k =>
          rw [hp] at hkp
          cases hkp
          have := I.encapsulate_some k d.coins
          rw [hkem] at this
          cases this
    · exact Or.inr ⟨h, len, c, s₁, s₂, pt, hd, hop, hr, hstands, ⟨e, he, hle, hf, hpt⟩, hnote, hdec⟩

omit hi in
theorem pending_note (I : S.Ideal) {coins : S.Coins} {p : Option Bytes}
    (hn : Ratchet.notePeerPqPub s coins p = some s') (hp : FieldOk s.pendingCt) : FieldOk s'.pendingCt := by
  rcases Ratchet.notePeerPqPub_eq hn with rfl | ⟨_, _, _, -, -, he, rfl⟩
  · exact hp
  · exact I.ct_fits he

theorem Inv.decrypt (I : S.Ideal) (X : Role) (d : DecryptDraws S) {seen : List (Sealed S)}
    (hseen : seen ⊆ w.sealed) (frame : Bytes) : Inv (w.act o (.decrypt X d seen frame)) cs := by
  rcases hi.decrypt_cases I o X d hseen frame with ⟨r, s', he, hs'⟩ |
    ⟨h, len, c, s₁, s₂, pt, hd, hop, hr, hstands, ⟨e, hem, hle, hf, hpt⟩, hnote, he⟩
  · simp only [World.act, he, Except.toOption, Option.toList_none, List.map_nil, List.nil_append]
    rcases hs' with rfl | ⟨rfl, -⟩
    · exact hi.receive _ (hi.stands X) (hi.stored X) (hi.pending X) rfl rfl (fun _ _ _ _ hb => hb)
    · exact hi.receive _ (Stands.of_place (s := w.side X) rfl (hi.stands X)) (hi.stored X).prune (hi.pending X) rfl
        rfl (fun _ _ _ _ hb => hb.prune)
  · obtain ⟨hself, hsend, -, hpend⟩ := hop.sending
    obtain ⟨hplace, hskip⟩ := place_note hnote
    have hplace' := hplace
    simp only [Ratchet.place, Prod.mk.injEq] at hplace'
    obtain ⟨hself', -, -, -, -, hsend', -⟩ := hplace'
    have hstored : Stored s₂ X cs := by
      intro p n e he
      rw [hskip] at he
      obtain ⟨b, hb, ho, hp, hk, hpass⟩ := hr.stored (hi.stored X).prune p n e he
      exact ⟨b, hb, ho, hp, hk, hpass.of_place hplace⟩
    have honward : ∀ b ∈ cs, b.owner = X.other → ∀ n, Behind (w.side X) b n → Behind s₂ b n := by
      intro b hb ho n hbh
      have hbh' : Behind ((w.side X).prune o d.pruneAt) b n := hbh.prune
      have hbh₁ : Behind s₁ b n := ⟨hr.mono b hb ho n hbh'.1, hr.stays_gone hi.linked hb hbh'.1 hbh'.2⟩
      exact hbh₁.note hnote
    have hi' := hi.receive (((w.side X).skipped.stale o.ttl d.pruneAt).map (X, ·) ++ w.expired)
      (hstands.of_place hplace) hstored (pending_note I hnote (hpend ▸ hi.pending X))
      (hself'.trans hself) (hsend'.trans hsend) honward
    have hq : Handed s₂ w.sealed cs ⟨X, frame, pt⟩ :=
      ⟨e, hem, c, hr.mem, h, len, hd, hle, hf, hpt, hr.owner, hr.dhPub, hr.behind.note hnote⟩
    have hnew : (X, frame) ∉ w.opened.map fun q => (q.receiver, q.frame) := by
      intro hm
      obtain ⟨q, hqm, hqe⟩ := List.mem_map.mp hm
      obtain ⟨rfl, rfl⟩ := Prod.mk.inj hqe
      obtain ⟨-, -, c', hc', h', len', hd', -, -, -, -, hp', hb'⟩ := hi.opened q hqm
      rw [hd] at hd'
      cases hd'
      have hcc : c' = c := hi.linked.key_inj hc' hr.mem (by rw [← hp', hr.dhPub])
      exact hr.not_behind (hcc ▸ hb'.prune)
    have h := hi'.handOut (q := ⟨X, frame, pt⟩) (by simpa using hq) hnew
    simpa [World.act, he, Except.toOption, hd] using h

theorem Inv.key_nonce_nodup : (w.sealed.map fun e => (e.key, e.nonce)).Nodup := by
  have hmap : (w.sealed.map fun e => (e.key, e.nonce)).map Prod.fst = w.sealed.map (·.key) := by
    rw [List.map_map]
    rfl
  exact List.Nodup.of_map Prod.fst (hmap ▸ hi.keys)

/-- Every call keeps the invariant. -/
theorem Inv.act (I : S.Ideal) {a : Act S} (hok : w.Ok a) : ∃ cs', Inv (w.act o a) cs' := by
  cases a with
  | encrypt X d pt => exact hi.encrypt I X d pt hok
  | decrypt X d seen frame => exact ⟨cs, hi.decrypt I X d hok frame⟩

end

/-- What both sides agree on in every state a session reaches. -/
theorem Inv.reach (I : S.Ideal) {hs : Session S} {now : Role → Time} {w : World S}
    (h : Reach (World.act o) World.Ok (World.start hs now) w) : ∃ cs, Inv w cs := by
  refine h.invariant (I := fun w => ∃ cs, Inv w cs) ⟨_, Inv.start hs now⟩ ?_
  intro w a hi hok
  obtain ⟨cs, hi⟩ := hi
  exact hi.act I hok

end EncedoChat.Eh2
