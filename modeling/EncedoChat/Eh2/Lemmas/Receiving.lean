import EncedoChat.Eh2.Lemmas.Chains

/-!
# Where the two sides stand, and what an opened frame changes

One side always sends on the newest chain. The other receives on it and must step before it sends, or
has seen nothing of it and still sends on the one before.
-/

namespace EncedoChat.Eh2

variable {S : Suite} {o : Opts}

/-! ## Positions -/

/-- The side sends on `c` and receives on the chain before it. -/
structure Front (s : Ratchet S) (c : Chain S) (cs : List (Chain S)) : Prop where
  dhSelf : s.dhSelf = some c.key
  dhPeerPub : s.dhPeerPub = S.pub c.partner
  rk : s.rk = c.rk
  ckSend : s.ckSend = some (S.chain.chainAt c.ck s.nSend)
  ckRecv : s.ckRecv = cs.head?.map fun d => S.chain.chainAt d.ck s.nRecv
  step : s.stepBeforeSend = false
  pn : s.pn = c.pn
  ct : s.ctInFlight = c.ct

/-- The side receives on `c` and sends next on a chain of its own. -/
structure Back (s : Ratchet S) (c : Chain S) (cs : List (Chain S)) : Prop where
  dhSelf : s.dhSelf = cs.head?.map Chain.key
  dhPeerPub : s.dhPeerPub = S.pub c.key
  rk : s.rk = c.rk
  ckRecv : s.ckRecv = some (S.chain.chainAt c.ck s.nRecv)
  step : s.stepBeforeSend = true
  ct : s.ctInFlight = none

/-- Where one side stands. -/
inductive Stands (s : Ratchet S) (X : Role) : List (Chain S) → Prop
  | newest {c cs} : X = c.owner → Front s c cs → Stands s X (c :: cs)
  | level {c cs} : X = c.owner.other → Back s c cs → Stands s X (c :: cs)
  | behind {c d ds} : X = c.owner.other → Front s d ds → Stands s X (c :: d :: ds)

variable {cs : List (Chain S)} {b : Chain S}

/-- The receiving chain of a side is one the other opened. -/
theorem Stands.receiving {s : Ratchet S} {X : Role} {ck : S.Key} (hs : Stands s X cs) (hl : Linked cs)
    (hck : s.ckRecv = some ck) : ∃ c ∈ cs, c.owner = X.other ∧ s.dhPeerPub = S.pub c.key ∧
      ck = S.chain.chainAt c.ck s.nRecv := by
  -- a side in front receives on the chain before its own
  have front : ∀ {c ds}, X = c.owner → Linked (c :: ds) → Front s c ds → ∃ d ∈ ds, d.owner = X.other ∧
      s.dhPeerPub = S.pub d.key ∧ ck = S.chain.chainAt d.ck s.nRecv := by
    intro c ds hX hl hf
    have hr := hf.ckRecv
    cases ds with
    | nil => rw [hck] at hr; cases hr
    | cons d ds =>
        rw [hck] at hr
        refine ⟨d, List.mem_cons_self .., ?_, by rw [hf.dhPeerPub, hl.partner], Option.some.inj hr⟩
        rw [hX, hl.owner, Role.other_other]
  cases hs with
  | newest hX hf =>
      obtain ⟨d, hd, h⟩ := front hX hl hf
      exact ⟨d, List.mem_cons_of_mem _ hd, h⟩
  | @level c cs hX hb =>
      have hr := hb.ckRecv
      rw [hck] at hr
      exact ⟨c, List.mem_cons_self .., by rw [hX, Role.other_other], hb.dhPeerPub, Option.some.inj hr⟩
  | @behind c d ds hX hf =>
      have hX' : X = d.owner := by rw [hX, hl.owner, Role.other_other]
      obtain ⟨e, he, h⟩ := front hX' hl.tail hf
      exact ⟨e, List.mem_cons_of_mem _ (List.mem_cons_of_mem _ he), h⟩

/-- Only a side that is behind can turn, and only to the newest chain. -/
theorem Stands.turning {s : Ratchet S} {X : Role} {self : S.Priv} (hs : Stands s X cs) (hl : Linked cs)
    (hb : b ∈ cs) (hself : s.dhSelf = some self) (hp : S.pub self = S.pub b.partner)
    (hne : S.pub b.key ≠ s.dhPeerPub) :
    ∃ d ds, cs = b :: d :: ds ∧ X = b.owner.other ∧ Front s d ds := by
  cases hs with
  | newest hX hf =>
      rw [hf.dhSelf] at hself
      cases hself
      exact absurd hp (hl.head_not_partner hb)
  | @level c cs hX hbk =>
      have hd := hbk.dhSelf
      rw [hself] at hd
      cases cs with
      | nil => cases hd
      | cons d ds =>
          cases hd
          have hbc : b = c := hl.partner_inj hb (List.mem_cons_self ..) (by rw [← hp, hl.partner])
          rw [hbc, hbk.dhPeerPub] at hne
          exact absurd rfl hne
  | @behind c d ds hX hf =>
      rw [hf.dhSelf] at hself
      cases hself
      have hbc : b = c := hl.partner_inj hb (List.mem_cons_self ..) (by rw [← hp, hl.partner])
      subst hbc
      exact ⟨d, ds, rfl, hX, hf⟩

/-! ## Messages behind a side -/

/-- The receiving chain of the side has gone past message `n` of `c`. -/
def Passed (s : Ratchet S) (c : Chain S) (n : Nat) : Prop :=
  if s.dhPeerPub = S.pub c.key then n < s.nRecv else ∀ k, s.dhSelf = some k → S.pub k ≠ S.pub c.partner

theorem Passed.of_eq {s s' : Ratchet S} {c : Chain S} {n : Nat} (hp : s'.dhPeerPub = s.dhPeerPub)
    (hd : s'.dhSelf = s.dhSelf) (hn : s.nRecv ≤ s'.nRecv) (h : Passed s c n) : Passed s' c n := by
  unfold Passed at h ⊢
  rw [hp, hd]
  split
  · rename_i he; rw [if_pos he] at h; omega
  · rename_i he; rwa [if_neg he] at h

/-- Every key set aside is the key of a message that was passed, filed under its chain. -/
def Stored (s : Ratchet S) (X : Role) (cs : List (Chain S)) : Prop :=
  ∀ p n e, s.skipped.entry p n = some e → ∃ c ∈ cs, c.owner = X.other ∧ S.pub c.key = p ∧
    e.key = S.chain.keyAt c.ck n ∧ Passed s c n

/-! ## The log -/

/-- The entry is message `n` of chain `c`. -/
structure Logged (e : Sealed S) (c : Chain S) (n : Nat) : Prop where
  sender : e.sender = c.owner
  key : e.key = S.chain.keyAt c.ck n
  nonce : e.nonce = S.aeadNonce e.key (Bytes.u32be n)
  header : ∃ kem : Option S.KemKey, e.aad = encodeHeader ⟨S.pub c.key, c.pn, n, c.ct, kem.map S.kemPub⟩
  ct : FieldOk c.ct
  tag : 16 ≤ e.ct.length

theorem fieldOk_kemPub (I : S.Ideal) (kem : Option S.KemKey) : FieldOk (kem.map S.kemPub) := by
  cases kem with
  | none => exact fieldOk_none
  | some k => exact I.kemPub_fits k

/-- The header of a sealed frame is read back as it was written, its counters modulo `2 ^ 32`. -/
theorem Logged.header_eq (I : S.Ideal) {e : Sealed S} {c : Chain S} {n len : Nat} {frame : Bytes} {h : Header}
    (hlog : Logged e c n) (hd : decodeHeader frame = some (h, len)) (haad : e.aad = frame.take len) :
    h.dhPub = S.pub c.key ∧ h.pn = c.pn % 2 ^ 32 ∧ h.n = n % 2 ^ 32 ∧ h.pqCt = c.ct ∧
      ∃ kem : Option S.KemKey, h.pqPub = kem.map S.kemPub := by
  obtain ⟨kem, hh⟩ := hlog.header
  have hw := decodeHeader_of_take ⟨hlog.ct, fieldOk_kemPub I kem⟩ hd (haad ▸ hh)
  rw [hw]
  exact ⟨rfl, rfl, rfl, rfl, kem, rfl⟩

theorem Logged.decodes (I : S.Ideal) {e : Sealed S} {c : Chain S} {n : Nat} (hlog : Logged e c n) :
    ∃ h, decodeHeader e.frame = some (h, e.aad.length) ∧ h.dhPub = S.pub c.key ∧ h.pn = c.pn % 2 ^ 32 ∧
      h.n = n % 2 ^ 32 ∧ h.pqCt = c.ct ∧ ∃ kem : Option S.KemKey, h.pqPub = kem.map S.kemPub := by
  obtain ⟨kem, hh⟩ := hlog.header
  refine ⟨Header.wire ⟨S.pub c.key, c.pn, n, c.ct, kem.map S.kemPub⟩, ?_, rfl, rfl, rfl, rfl, kem, rfl⟩
  rw [Sealed.frame, hh]
  exact decodeHeader_encodeHeader ⟨hlog.ct, fieldOk_kemPub I kem⟩ hlog.tag

/-! ## What opening does -/

/-- The frame with header `h` was message `h.n` of chain `c`, opened for the first time. -/
structure Receipt (s s' : Ratchet S) (X : Role) (cs : List (Chain S)) (h : Header) (c : Chain S) : Prop where
  mem : c ∈ cs
  owner : c.owner = X.other
  dhPub : h.dhPub = S.pub c.key
  passed : Passed s' c h.n
  gone : s'.skipped.entry h.dhPub h.n = none
  first : Passed s c h.n → ∃ e, s.skipped.entry h.dhPub h.n = some e
  mono : ∀ b ∈ cs, b.owner = X.other → ∀ n, Passed s b n → Passed s' b n
  kept : ∀ p n e, s'.skipped.entry p n = some e → s.skipped.entry p n = some e ∨
    ∃ b ∈ cs, b.owner = X.other ∧ S.pub b.key = p ∧ e.key = S.chain.keyAt b.ck n ∧
      ¬Passed s b n ∧ Passed s' b n

variable {s s' : Ratchet S} {X : Role} {h : Header} {c : Chain S}

theorem Receipt.stored (hr : Receipt s s' X cs h c) (hst : Stored s X cs) : Stored s' X cs := by
  intro p n e he
  rcases hr.kept p n e he with hold | ⟨b, hb, ho, hp, hk, -, hpass⟩
  · obtain ⟨b, hb, ho, hp, hk, hpass⟩ := hst p n e hold
    exact ⟨b, hb, ho, hp, hk, hr.mono b hb ho n hpass⟩
  · exact ⟨b, hb, ho, hp, hk, hpass⟩

/-- A message passed and not set aside stays so. -/
theorem Receipt.stays_gone (hr : Receipt s s' X cs h c) (hl : Linked cs) {b : Chain S} {n : Nat} (hb : b ∈ cs)
    (hpass : Passed s b n) (hgone : s.skipped.entry (S.pub b.key) n = none) :
    s'.skipped.entry (S.pub b.key) n = none := by
  cases he : s'.skipped.entry (S.pub b.key) n with
  | none => rfl
  | some e =>
      rcases hr.kept _ n e he with hold | ⟨b', hb', -, hp, -, hnot, -⟩
      · rw [hgone] at hold; cases hold
      · rw [hl.key_inj hb' hb hp] at hnot
        exact absurd hpass hnot

/-- The keys put while walking from `start` up to `n` are those of messages `start` to `n - 1`. -/
theorem entry_walk {maxChains : Nat} {p q : Pub} {at_ : Nat → Time} {st : SkippedKeys S.Key} {ck ck₀ : S.Key}
    {start n m : Nat} {e : Skipped S.Key} (hck : ck = S.chain.chainAt ck₀ start)
    (he : (SkippedKeys.putAll maxChains p at_ st start (S.chain.walk ck (n - start)).1).entry q m = some e) :
    (q = p ∧ start ≤ m ∧ m < n ∧ e.key = S.chain.keyAt ck₀ m) ∨ st.entry q m = some e := by
  rcases SkippedKeys.entry_putAll he with ⟨hq, i, rfl, hi⟩ | hold
  · have hlt : i < n - start := by
      have := (List.getElem?_eq_some_iff.mp hi).1
      rwa [KeyChain.length_walk] at this
    rw [KeyChain.walk_getElem? _ _ hlt, Option.some.injEq, hck, KeyChain.keyAt, KeyChain.chainAt_add] at hi
    exact Or.inl ⟨hq, by omega, by omega, hi.symm⟩
  · exact Or.inr hold

section
variable {opens : Open S} {d : DecryptDraws S} {header ct pt : Bytes}

theorem receipt_stashed (hst : Stored s X cs) {mk : S.Key}
    (hp : s.skipped.peek h.dhPub h.n = some mk) :
    ∃ c, Receipt s { s with skipped := s.skipped.drop h.dhPub h.n } X cs h c ∧
      mk = S.chain.keyAt c.ck h.n := by
  obtain ⟨e, he, rfl⟩ := SkippedKeys.peek_eq_some.mp hp
  obtain ⟨c, hc, ho, hpub, hk, hpass⟩ := hst _ _ e he
  refine ⟨c, ⟨hc, ho, hpub.symm, hpass, ?_, fun _ => ⟨e, he⟩, fun b _ _ n hn => hn, ?_⟩, hk⟩
  · rw [SkippedKeys.entry_drop, if_pos ⟨rfl, rfl⟩]
  · intro p n e' he'
    rw [SkippedKeys.entry_drop] at he'
    split at he'
    · cases he'
    · exact Or.inl he'

theorem receipt_same (hl : Linked cs) (hs : Stands s X cs) {ck : S.Key}
    (hpeek : s.skipped.peek h.dhPub h.n = none) (hd : h.dhPub = s.dhPeerPub) (hck : s.ckRecv = some ck)
    (hle : s.nRecv ≤ h.n) :
    ∃ c, Receipt s (Ratchet.afterSame o s d h ck) X cs h c ∧
      S.chain.keyAt ck (h.n - s.nRecv) = S.chain.keyAt c.ck h.n := by
  obtain ⟨c, hc, ho, hpub, rfl⟩ := hs.receiving hl hck
  have hkey : S.chain.keyAt (S.chain.chainAt c.ck s.nRecv) (h.n - s.nRecv) = S.chain.keyAt c.ck h.n := by
    rw [KeyChain.keyAt, KeyChain.chainAt_add, KeyChain.keyAt, Nat.add_sub_cancel' hle]
  have hpass : ∀ n, Passed s c n ↔ n < s.nRecv := fun n => by rw [Passed, if_pos hpub]
  have hpass' : ∀ n, Passed (Ratchet.afterSame o s d h (S.chain.chainAt c.ck s.nRecv)) c n ↔ n < h.n + 1 :=
    fun n => by rw [Passed, if_pos (by exact hpub)]; rfl
  refine ⟨c, ⟨hc, ho, hd.trans hpub, (hpass' _).mpr (by omega), ?_, ?_, ?_, ?_⟩, hkey⟩
  · cases he : (Ratchet.afterSame o s d h (S.chain.chainAt c.ck s.nRecv)).skipped.entry h.dhPub h.n with
    | none => rfl
    | some e =>
        rcases entry_walk rfl he with ⟨-, -, hlt, -⟩ | hold
        · omega
        · simp [SkippedKeys.peek, hold] at hpeek
  · intro hp
    rw [hpass] at hp
    omega
  · intro b _ _ n hb
    refine Passed.of_eq (s := s) rfl rfl ?_ hb
    show s.nRecv ≤ h.n + 1
    omega
  · intro p n e he
    rcases entry_walk rfl he with ⟨hp, hge, hlt, hk⟩ | hold
    · refine Or.inr ⟨c, hc, ho, ?_, hk, ?_, (hpass' n).mpr (by omega)⟩
      · rw [hp, hd, hpub]
      · rw [hpass]; omega
    · exact Or.inl hold

theorem answerIkm_dh {dh : S.Shared} {ikm : RootIkm S.Shared S.Ss} (ha : s.answerIkm h dh = some ikm) :
    ikm.dh = dh := by
  unfold Ratchet.answerIkm at ha
  split at ha
  · cases ha; rfl
  · obtain ⟨ss, -, rfl⟩ := Option.map_eq_some_iff.mp ha
    rfl

/-- The keys of a closed chain, from where the side stood. -/
theorem entry_closing (hs : Stands s X cs) (hl : Linked cs) {closing : List S.Key}
    (hc : Ratchet.closeChain o s h = .ok closing) {p : Pub} {m : Nat} {e : Skipped S.Key}
    (he : (SkippedKeys.putAll o.maxChains s.dhPeerPub d.closingAt s.skipped s.nRecv closing).entry p m = some e) :
    (∃ c ∈ cs, c.owner = X.other ∧ s.dhPeerPub = S.pub c.key ∧ p = s.dhPeerPub ∧ s.nRecv ≤ m ∧
      e.key = S.chain.keyAt c.ck m) ∨ s.skipped.entry p m = some e := by
  unfold Ratchet.closeChain at hc
  split at hc
  · cases hc
    exact Or.inr he
  · rename_i ck hck
    obtain ⟨c, hcm, ho, hpub, hck'⟩ := hs.receiving hl hck
    cases hadv : Ratchet.advance o ck s.nRecv h.pn with
    | error r => rw [hadv] at hc; cases hc
    | ok r =>
        rw [hadv] at hc
        cases hc
        obtain ⟨-, rfl⟩ := Ratchet.advance_ok.mp hadv
        rcases entry_walk hck' he with ⟨hp, hge, -, hk⟩ | hold
        · exact Or.inl ⟨c, hcm, ho, hpub, hp, hge, hk⟩
        · exact Or.inr hold

theorem receipt_turned (I : S.Ideal) (hl : Linked cs) (hs : Stands s X cs) {b : Chain S} {self : S.Priv}
    {dh : S.Shared} {ikm : RootIkm S.Shared S.Ss} {closing : List S.Key} (hb : b ∈ cs)
    (hpub : h.dhPub = S.pub b.key) (hikm : ikm = b.ikm) (hck : (S.dhStep s.rk ikm).2 = b.ck)
    (hpeek : s.skipped.peek h.dhPub h.n = none) (hne : h.dhPub ≠ s.dhPeerPub) (hself : s.dhSelf = some self)
    (hclose : Ratchet.closeChain o s h = .ok closing) (hdh : S.dh self h.dhPub = some dh)
    (hans : s.answerIkm h dh = some ikm) :
    Receipt s (Ratchet.countAnswer (Ratchet.afterTurn o s d h closing ikm) h d.pqAt) X cs h b ∧
      ∃ c ds, cs = b :: c :: ds ∧ X = b.owner.other ∧ Front s c ds := by
  have hdhb : S.dh self (S.pub b.key) = some b.ikm.dh := by rw [← hpub, hdh, ← hikm, answerIkm_dh hans]
  have hp : S.pub self = S.pub b.partner := hl.turn I hb hdhb
  have hstand := hs.turning hl hb hself hp (by rw [← hpub]; exact hne)
  obtain ⟨_, _, _, heq⟩ := Ratchet.countAnswer_eq (Ratchet.afterTurn o s d h closing ikm) h d.pqAt
  have hpass : ∀ n, ¬Passed s b n := by
    intro n hn
    rw [Passed, if_neg (by rw [← hpub]; exact fun he => hne he.symm)] at hn
    exact hn self hself hp
  set s' := Ratchet.countAnswer (Ratchet.afterTurn o s d h closing ikm) h d.pqAt with hs'
  have hpeer : s'.dhPeerPub = S.pub b.key := by rw [heq]; exact hpub
  have hself' : s'.dhSelf = some self := by rw [heq]; exact hself
  have hpass' : ∀ n, Passed s' b n ↔ n < h.n + 1 := by
    intro n
    rw [Passed, if_pos hpeer, heq]
    rfl
  -- every other chain is behind the side now
  have hother : ∀ e ∈ cs, e ≠ b → ∀ n, Passed s' e n := by
    intro e he hne' n
    rw [Passed, if_neg (by rw [hpeer]; exact fun hk => hne' (hl.key_inj he hb hk.symm))]
    intro k hk hkp
    rw [hself'] at hk
    cases hk
    exact hne' (hl.partner_inj he hb (by rw [← hkp, hp]))
  have hentry : ∀ {p n e}, s'.skipped.entry p n = some e →
      (p = h.dhPub ∧ n < h.n ∧ e.key = S.chain.keyAt b.ck n) ∨
      (SkippedKeys.putAll o.maxChains s.dhPeerPub d.closingAt s.skipped s.nRecv closing).entry p n = some e := by
    intro p n e he
    rw [heq] at he
    have hck₀ : (S.dhStep s.rk ikm).2 = S.chain.chainAt (S.dhStep s.rk ikm).2 0 := rfl
    rcases entry_walk (n := h.n) hck₀ he with ⟨hp, -, hlt, hk⟩ | hold
    · exact Or.inl ⟨hp, hlt, by rw [hk, hck]⟩
    · exact Or.inr hold
  refine ⟨⟨hb, ?_, hpub, (hpass' _).mpr (by omega), ?_, fun hc => absurd hc (hpass _), ?_, ?_⟩, hstand⟩
  · obtain ⟨_, _, _, hX, _⟩ := hstand
    rw [hX, Role.other_other]
  · cases he : s'.skipped.entry h.dhPub h.n with
    | none => rfl
    | some e =>
        rcases hentry he with ⟨-, hlt, -⟩ | hold
        · omega
        · rcases entry_closing hs hl hclose hold with ⟨c, -, -, -, hp, -⟩ | hold
          · exact absurd hp hne
          · simp [SkippedKeys.peek, hold] at hpeek
  · intro e he _ n hn
    by_cases heb : e = b
    · exact absurd (heb ▸ hn) (hpass n)
    · exact hother e he heb n
  · intro p n e he
    rcases hentry he with ⟨hp', hlt, hk⟩ | hold
    · refine Or.inr ⟨b, hb, ?_, by rw [hp', hpub], hk, hpass n, (hpass' n).mpr (by omega)⟩
      obtain ⟨_, _, _, hX, _⟩ := hstand
      rw [hX, Role.other_other]
    · rcases entry_closing hs hl hclose hold with ⟨c, hc, ho, hcp, hp', hge, hk⟩ | hold
      · refine Or.inr ⟨c, hc, ho, by rw [hp', hcp], hk, ?_, hother c hc ?_ n⟩
        · rw [Passed, if_pos hcp]
          omega
        · rintro rfl
          exact hne (hpub.trans hcp.symm)
      · exact Or.inl hold

end

end EncedoChat.Eh2
