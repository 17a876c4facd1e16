import EncedoChat.Eh2.Lemmas.Invariant

/-!
# The two roots agree

A hybrid step agrees when the secret it mixes in was encapsulated to the key that the peer still holds.
A frame that arrives late can carry an older key of the peer, and the sender answers it again; then the
next hybrid step is made under a key the peer has dropped.
-/

namespace EncedoChat.Eh2

variable {S : Suite} {o : Opts} {s s' : Ratchet S} {X : Role} {cs : List (Chain S)} {w : World S}

/-- The step of this call, if it makes one, answers the key the peer has outstanding; and the chain has
not run out of counters. -/
def World.Agrees (w : World S) : Act S → Prop
  | .encrypt X _ _ =>
    if (w.side X).mustStep then
      (w.side X).pendingSs.isSome → (w.side X.other).pqKey.map S.kemPub = (w.side X).seenPeerPqPub
    else (w.side X).nSend < 2 ^ 32
  | .decrypt .. => True

instance (w : World S) (a : Act S) : Decidable (w.Agrees a) :=
  match a with
  | .encrypt X _ _ => inferInstanceAs (Decidable (if (w.side X).mustStep then
      (w.side X).pendingSs.isSome → (w.side X.other).pqKey.map S.kemPub = (w.side X).seenPeerPqPub
      else (w.side X).nSend < 2 ^ 32))
  | .decrypt .. => isTrue trivial

/-- Message `n` of `c` was handed out, is set aside, or was let go. -/
def Kept (o : Opts) (w : World S) (X : Role) (c : Chain S) (n : Nat) : Prop :=
  (∃ q ∈ w.opened, q.receiver = X ∧ ∃ h len, decodeHeader q.frame = some (h, len) ∧
    h.dhPub = S.pub c.key ∧ h.n = n) ∨
  (∃ e, (w.side X).skipped.entry (S.pub c.key) n = some e) ∨
  (X, S.pub c.key, n) ∈ w.expired ∨ o.maxChains = 0

theorem Kept.mono {w' : World S} {c : Chain S} {n : Nat} (h : Kept o w X c n) (hop : w.opened ⊆ w'.opened)
    (hex : w.expired ⊆ w'.expired)
    (hst : ∀ e, (w.side X).skipped.entry (S.pub c.key) n = some e → Kept o w' X c n) : Kept o w' X c n := by
  rcases h with ⟨q, hq, h⟩ | ⟨e, he⟩ | h | h
  · exact Or.inl ⟨q, hop hq, h⟩
  · exact hst e he
  · exact Or.inr (Or.inr (Or.inl (hex h)))
  · exact Or.inr (Or.inr (Or.inr h))

structure Agreed (o : Opts) (w : World S) (cs : List (Chain S)) : Prop where
  pending : ∀ X ss, (w.side X).pendingSs = some ss → ∃ p coins ct, (w.side X).seenPeerPqPub = some p ∧
    S.encapsulate p coins = some (ct, ss) ∧ (w.side X).pendingCt = some ct
  /-- a side that is behind can make the step of the newest chain -/
  answers : ∀ c d ds, cs = c :: d :: ds → (w.side c.owner.other).dhPeerPub ≠ S.pub c.key →
    ∀ h, h.pqCt = c.ct → (w.side c.owner.other).answerIkm h c.ikm.dh = some c.ikm
  short : ∀ e ∈ w.sealed, ∀ c ∈ cs, ∀ n, Logged e c n → n < 2 ^ 32
  complete : ∀ X, ∀ c ∈ cs, (w.side X).dhPeerPub = S.pub c.key → ∀ n < (w.side X).nRecv, Kept o w X c n

theorem Agreed.start (hs : Session S) (now : Role → Time) : Agreed o (World.start hs now)
    [⟨.initiator, hs.ekI, hs.ekR, hs.sk, .classical hs.firstStepIkm, 0, none⟩] where
  pending X ss h := by cases X <;> cases h
  answers c d ds h := by cases h
  short e he := by cases he
  complete X c _ _ n hn := by cases X <;> cases hn

theorem answerIkm_of_pqKey {h : Header} {dh : S.Shared} (hk : s'.pqKey = s.pqKey) :
    s'.answerIkm h dh = s.answerIkm h dh := by
  unfold Ratchet.answerIkm
  rw [hk]

/-! ## Sending -/

/-- Sealing on a chain changes neither what a side holds of the other's nor its keys. -/
theorem Agreed.sealOn (ha : Agreed o w cs) (hi : Inv w cs) (I : S.Ideal) {c : Chain S} (hc : c ∈ cs)
    {r : Ratchet S × Sealed S} {self : S.Priv} {ck : S.Key} {pt : Bytes}
    (hr : r = Ratchet.sealNext X (w.side X) self ck pt) (hlog : Logged r.2 c (w.side X).nSend)
    (hn : (w.side X).nSend < 2 ^ 32) :
    Agreed o { w with side := Function.update w.side X r.1, sealed := r.2 :: w.sealed } cs where
  pending Y ss h := by
    by_cases hY : Y = X
    · subst hY
      simp only [Function.update_self, hr] at h ⊢
      exact ha.pending Y ss h
    · simp only [Function.update_of_ne hY] at h ⊢
      exact ha.pending Y ss h
  answers b d ds hcs hne h hh := by
    by_cases hY : b.owner.other = X
    · simp only [hY, Function.update_self, hr] at hne ⊢
      have := ha.answers b d ds hcs (by rw [hY]; exact hne) h hh
      rw [hY] at this
      exact (answerIkm_of_pqKey rfl).trans this
    · simp only [Function.update_of_ne hY] at hne ⊢
      exact ha.answers b d ds hcs hne h hh
  short e he b hb n hle := by
    rcases List.mem_cons.mp he with rfl | he
    · obtain ⟨-, rfl⟩ := hi.linked.keyAt_inj I hb hc (hle.key.symm.trans hlog.key)
      exact hn
    · exact ha.short e he b hb n hle
  complete Y b hb hp n hn := by
    by_cases hY : Y = X
    · subst hY
      simp only [Function.update_self, hr] at hp hn
      refine (ha.complete Y b hb hp n hn).mono (List.Subset.refl _) (List.Subset.refl _) fun e he => ?_
      exact Or.inr (Or.inl ⟨e, by simp only [Function.update_self, hr]; exact he⟩)
    · simp only [Function.update_of_ne hY] at hp hn
      refine (ha.complete Y b hb hp n hn).mono (List.Subset.refl _) (List.Subset.refl _) fun e he => ?_
      exact Or.inr (Or.inl ⟨e, by simpa only [Function.update_of_ne hY] using he⟩)

/-- A step that answers the key the peer holds is one the peer can make too. -/
theorem Agreed.openChain (ha : Agreed o w cs) (hi : Inv w cs) (I : S.Ideal) {c : Chain S} {ds : List (Chain S)}
    (hcs : cs = c :: ds) (hX : X = c.owner.other) (hb : Back (w.side X) c ds) {d : EncryptDraws S}
    (hfresh : S.pub d.newDh ∉ w.drawn) {dh : S.Shared} (hdh : S.dh d.newDh (w.side X).dhPeerPub = some dh)
    (hag : (w.side X).pendingSs.isSome → (w.side X.other).pqKey.map S.kemPub = (w.side X).seenPeerPqPub) :
    Agreed o { w with
      side := Function.update w.side X (Ratchet.openSendChain o (w.side X) d dh)
      drawn := S.pub d.newDh :: w.drawn } (nextChain (w.side X) X c.key d dh :: cs) := by
  have hlinked := (hi.openChain (o := o) I hcs hX hb hfresh hdh).linked
  subst hcs
  obtain ⟨hself, hpeer, hnRecv, hskip, -, -, -⟩ := openSendChain_keeps o (w.side X) d dh
  have hne : ∀ b ∈ c :: ds, S.pub d.newDh ≠ S.pub b.key ∧ S.pub d.newDh ≠ S.pub b.partner := by
    intro b hbm
    exact ⟨fun h => hfresh (h ▸ (hi.drawn b hbm).1), fun h => hfresh (h ▸ (hi.drawn b hbm).2)⟩
  -- no side receives on the new chain yet
  have hnobody : ∀ Y, (w.side Y).dhPeerPub ≠ S.pub d.newDh := by
    intro Y hY
    cases hi.stands Y with
    | newest _ hf => exact (hne c (List.mem_cons_self ..)).2 (by rw [← hY, hf.dhPeerPub])
    | level _ hb => exact (hne c (List.mem_cons_self ..)).1 (by rw [← hY, hb.dhPeerPub])
    | @behind _ b _ _ hf =>
        exact (hne b (List.mem_cons_of_mem _ (List.mem_cons_self ..))).2 (by rw [← hY, hf.dhPeerPub])
  exact {
    pending := fun Y ss h => by
      by_cases hY : Y = X
      · subst hY
        obtain ⟨pqKey, he, -⟩ := Ratchet.openSendChain_eq (o := o) (w.side Y) d dh
        simp only [Function.update_self, he, Ratchet.pendingSs_countStep] at h
        cases h
      · simp only [Function.update_of_ne hY] at h ⊢
        exact ha.pending Y ss h
    answers := fun b b' bs hbs _ h hh => by
      cases hbs
      have hother : (nextChain (w.side X) X c.key d dh).owner.other ≠ X := Role.other_ne X
      simp only [Function.update_of_ne hother]
      show (w.side X.other).answerIkm h ((w.side X).rootIkm dh).dh = some ((w.side X).rootIkm dh)
      have hct : h.pqCt = ((w.side X).countStep d.pqAt).ctInFlight := hh
      rw [Ratchet.ctInFlight_countStep, hb.ct] at hct
      unfold Ratchet.rootIkm Ratchet.answerIkm
      cases hss : (w.side X).pendingSs with
      | none =>
          rw [hss] at hct
          simp only [Option.isSome_none, Bool.false_eq_true, if_false] at hct
          rw [hct]
          rfl
      | some ss =>
          obtain ⟨p, coins, ct, hseen, hen, hpct⟩ := ha.pending X ss hss
          rw [hss, hpct] at hct
          simp only [Option.isSome_some, if_true] at hct
          have hpeerKey := hag (by rw [hss]; rfl)
          rw [hseen] at hpeerKey
          obtain ⟨k, hk, rfl⟩ := Option.map_eq_some_iff.mp hpeerKey
          simp only [hct, hk, Option.bind_some, I.decapsulate hen, Option.map_some, RootIkm.dh]
    short := fun e he b hbm n hle => by
      obtain ⟨b', hbm', n', hle'⟩ := hi.log e he
      obtain ⟨rfl, rfl⟩ := hlinked.keyAt_inj I hbm (List.mem_cons_of_mem _ hbm') (hle.key.symm.trans hle'.key)
      exact ha.short e he b hbm' n hle
    complete := fun Y b hbm hp n hn => by
      have hbm' : b ∈ c :: ds := by
        rcases List.mem_cons.mp hbm with rfl | hbm
        · by_cases hY : Y = X
          · subst hY
            simp only [Function.update_self, hpeer] at hp
            exact absurd hp (hnobody Y)
          · simp only [Function.update_of_ne hY] at hp
            exact absurd hp (hnobody Y)
        · exact hbm
      by_cases hY : Y = X
      · subst hY
        simp only [Function.update_self, hpeer, hnRecv] at hp hn
        refine (ha.complete Y b hbm' hp n hn).mono (List.Subset.refl _) (List.Subset.refl _) fun e he => ?_
        exact Or.inr (Or.inl ⟨e, by simpa only [Function.update_self, hskip] using he⟩)
      · simp only [Function.update_of_ne hY] at hp hn
        refine (ha.complete Y b hbm' hp n hn).mono (List.Subset.refl _) (List.Subset.refl _) fun e he => ?_
        exact Or.inr (Or.inl ⟨e, by simpa only [Function.update_of_ne hY] using he⟩) }

/-! ## Receiving -/

theorem entry_walk_same {maxChains : Nat} (hmax : 0 < maxChains) (p : Pub) (at_ : Nat → Time)
    (st : SkippedKeys S.Key) (ck : S.Key) (start stop n : Nat) :
    (start ≤ n → n < stop → ∃ e,
      (SkippedKeys.putAll maxChains p at_ st start (S.chain.walk ck (stop - start)).1).entry p n = some e) ∧
    (n < start → (SkippedKeys.putAll maxChains p at_ st start (S.chain.walk ck (stop - start)).1).entry p n
      = st.entry p n) := by
  obtain ⟨hout, hin⟩ := @SkippedKeys.entry_putAll_same _ _ hmax p at_ (S.chain.walk ck (stop - start)).1 st start n
  constructor
  · intro hge hlt
    obtain ⟨e, he, -⟩ := hin hge _ (KeyChain.walk_getElem? S.chain ck (by omega))
    exact ⟨e, he⟩
  · intro hlt
    exact hout (Or.inl hlt)

/-- After a frame opens, every message of the receiving chain the side has gone past is set aside, but
for the frame itself and what had gone before. -/
theorem Ratchet.Opens.complete {opens : Open S} {d : DecryptDraws S} {h : Header} {header ct pt : Bytes}
    (hop : Ratchet.Opens o opens s d h header ct s' pt) (hmax : 0 < o.maxChains) {n : Nat}
    (hn : n < s'.nRecv) :
    (h.dhPub = s'.dhPeerPub ∧ n = h.n) ∨ (∃ e, s'.skipped.entry s'.dhPeerPub n = some e) ∨
      (s.dhPeerPub = s'.dhPeerPub ∧ n < s.nRecv ∧ s.skipped.entry s'.dhPeerPub n = none) := by
  cases hop with
  | stashed hp _ =>
      by_cases hq : s.dhPeerPub = h.dhPub ∧ n = h.n
      · exact Or.inl ⟨hq.1.symm, hq.2⟩
      · have hdrop : (s.skipped.drop h.dhPub h.n).entry s.dhPeerPub n = s.skipped.entry s.dhPeerPub n := by
          rw [SkippedKeys.entry_drop, if_neg hq]
        cases he : s.skipped.entry s.dhPeerPub n with
        | none => exact Or.inr (Or.inr ⟨rfl, hn, rfl⟩)
        | some e => exact Or.inr (Or.inl ⟨e, hdrop.trans he⟩)
  | @same ck _ _ hd _ hle _ _ =>
      have hn' : n < h.n + 1 := hn
      obtain ⟨hin, hout⟩ := entry_walk_same hmax h.dhPub d.walkAt s.skipped ck s.nRecv h.n n
      have hpeer : (Ratchet.afterSame o s d h ck).dhPeerPub = h.dhPub := hd.symm
      rw [hpeer]
      by_cases hq : n = h.n
      · exact Or.inl ⟨rfl, hq⟩
      · by_cases hlt : n < s.nRecv
        · cases he : s.skipped.entry h.dhPub n with
          | none => exact Or.inr (Or.inr ⟨hd.symm, hlt, rfl⟩)
          | some e => exact Or.inr (Or.inl ⟨e, (hout hlt).trans he⟩)
        · exact Or.inr (Or.inl (hin (by omega) (by omega)))
  | @turned self dh ikm closing _ _ hne _ _ _ _ _ _ =>
      obtain ⟨_, _, _, heq⟩ := Ratchet.countAnswer_eq (Ratchet.afterTurn o s d h closing ikm) h d.pqAt
      rw [heq] at hn ⊢
      have hn' : n < h.n + 1 := hn
      obtain ⟨hin, -⟩ := entry_walk_same hmax h.dhPub d.walkAt
        (SkippedKeys.putAll o.maxChains s.dhPeerPub d.closingAt s.skipped s.nRecv closing) (S.dhStep s.rk ikm).2
        0 h.n n
      by_cases hq : n = h.n
      · exact Or.inl ⟨rfl, hq⟩
      · exact Or.inr (Or.inl (hin (Nat.zero_le n) (by omega)))

theorem SkippedKeys.mem_stale {K : Type} {st : SkippedKeys K} {p : Pub} {n : Nat} {e : Skipped K}
    {ttl now : Time} (he : st.entry p n = some e) (hold : (st.prune ttl now).entry p n = none) :
    (p, n) ∈ st.stale ttl now := by
  have hage : now - e.ts > ttl := by
    by_contra hle
    have hp := SkippedKeys.entry_prune.mpr ⟨he, not_lt.mp hle⟩
    rw [hold] at hp
    cases hp
  obtain ⟨chain, hc, hn⟩ := Option.bind_eq_some_iff.mp he
  refine List.mem_flatMap.mpr ⟨(p, chain), OrdMap.get_eq_some.mp hc, ?_⟩
  refine List.mem_map.mpr ⟨(n, e), ?_, rfl⟩
  exact List.mem_filter.mpr ⟨OrdMap.get_eq_some.mp hn, by simpa using hage⟩

/-- A frame that opens leaves the encapsulation key and the receiving chain, or turns. -/
theorem Ratchet.Opens.turns {opens : Open S} {d : DecryptDraws S} {h : Header} {header ct pt : Bytes}
    (hop : Ratchet.Opens o opens s d h header ct s' pt) :
    (s'.pqKey = s.pqKey ∧ s'.dhPeerPub = s.dhPeerPub) ∨ s'.stepBeforeSend = true ∧ s'.dhPeerPub ≠ s.dhPeerPub := by
  cases hop with
  | stashed => exact Or.inl ⟨rfl, rfl⟩
  | same => exact Or.inl ⟨rfl, rfl⟩
  | @turned self dh ikm closing _ _ hne =>
      obtain ⟨_, _, _, heq⟩ := Ratchet.countAnswer_eq (Ratchet.afterTurn o s d h closing ikm) h d.pqAt
      rw [heq]
      exact Or.inr ⟨rfl, hne⟩

/-- Whatever one side is handed, the agreement stands. -/
theorem Agreed.decrypt (ha : Agreed o w cs) (hi : Inv w cs) (I : S.Ideal) (X : Role) (d : DecryptDraws S)
    {seen : List (Sealed S)} (hseen : seen ⊆ w.sealed) (frame : Bytes) :
    Agreed o (w.act o (.decrypt X d seen frame)) cs := by
  rcases hi.decrypt_cases I o X d hseen frame with ⟨r, s', he, hs'⟩ |
    ⟨h, len, c, s₁, s₂, pt, hd, hop, hr, hstands, ⟨e, hem, hle, hf, hpt⟩, hnote, he⟩
  · have hsame : s'.pendingSs = (w.side X).pendingSs ∧ s'.pendingCt = (w.side X).pendingCt ∧
        s'.seenPeerPqPub = (w.side X).seenPeerPqPub ∧ s'.pqKey = (w.side X).pqKey ∧
        s'.dhPeerPub = (w.side X).dhPeerPub ∧ s'.nRecv = (w.side X).nRecv := by
      rcases hs' with rfl | ⟨rfl, -⟩ <;> exact ⟨rfl, rfl, rfl, rfl, rfl, rfl⟩
    obtain ⟨hss, hct, hseenPub, hpq, hpeer, hnRecv⟩ := hsame
    simp only [World.act, he, Except.toOption, Option.toList_none, List.map_nil, List.nil_append]
    exact {
      pending := fun Y ss hp => by
        by_cases hY : Y = X
        · subst hY
          simp only [Function.update_self, hss, hct, hseenPub] at hp ⊢
          exact ha.pending Y ss hp
        · simp only [Function.update_of_ne hY] at hp ⊢
          exact ha.pending Y ss hp
      answers := fun b b' bs hcs hne h hh => by
        by_cases hY : b.owner.other = X
        · simp only [hY, Function.update_self, hpeer] at hne ⊢
          have := ha.answers b b' bs hcs (by rw [hY]; exact hne) h hh
          rw [hY] at this
          rw [answerIkm_of_pqKey hpq, this]
        · simp only [Function.update_of_ne hY] at hne ⊢
          exact ha.answers b b' bs hcs hne h hh
      short := ha.short
      complete := fun Y b hb hp n hn => by
        by_cases hY : Y = X
        · subst hY
          simp only [Function.update_self, hpeer, hnRecv] at hp hn
          refine (ha.complete Y b hb hp n hn).mono (List.Subset.refl _) (List.subset_append_right _ _) fun e he' => ?_
          rcases hs' with rfl | ⟨rfl, hdec⟩
          · exact Or.inr (Or.inl ⟨e, by simpa only [Function.update_self] using he'⟩)
          · cases hpr : ((w.side Y).skipped.prune o.ttl d.pruneAt).entry (S.pub b.key) n with
            | some e' => exact Or.inr (Or.inl ⟨e', by simp only [Function.update_self]; exact hpr⟩)
            | none =>
                refine Or.inr (Or.inr (Or.inl ?_))
                simp only [hdec, Bool.false_eq_true, if_false]
                exact List.mem_append_left _ (List.mem_map_of_mem (SkippedKeys.mem_stale he' hpr))
        · simp only [Function.update_of_ne hY] at hp hn
          refine (ha.complete Y b hb hp n hn).mono (List.Subset.refl _) (List.subset_append_right _ _) fun e he' => ?_
          exact Or.inr (Or.inl ⟨e, by simpa only [Function.update_of_ne hY] using he'⟩) }
  · obtain ⟨hself, hsend, hss, hct⟩ := hop.sending
    have hseenPub := hop.seenPeerPqPub
    obtain ⟨hplace, hskip⟩ := place_note hnote
    have hplace' := hplace
    simp only [Ratchet.place, Prod.mk.injEq] at hplace'
    obtain ⟨-, hpeer, -, -, -, -, hnRecv, -, hstep, -⟩ := hplace'
    have hpq : s₂.pqKey = s₁.pqKey := by
      rcases Ratchet.notePeerPqPub_eq hnote with rfl | ⟨_, _, _, -, -, -, rfl⟩ <;> rfl
    simp only [World.act, he, Except.toOption, Option.toList_some, List.map_cons, List.map_nil,
      List.singleton_append, hd, Option.isNone_some, Bool.false_eq_true, if_false]
    exact {
      pending := fun Y ss hp => by
        by_cases hY : Y = X
        · subst hY
          simp only [Function.update_self] at hp ⊢
          rcases Ratchet.notePeerPqPub_eq hnote with rfl | ⟨p, ct, ss', -, -, hen, rfl⟩
          · rw [hss] at hp
            rw [hseenPub, hct]
            exact ha.pending Y ss hp
          · cases hp
            exact ⟨p, d.coins, ct, rfl, hen, rfl⟩
        · simp only [Function.update_of_ne hY] at hp ⊢
          exact ha.pending Y ss hp
      answers := fun b b' bs hcs hne h' hh => by
        by_cases hY : b.owner.other = X
        · simp only [hY, Function.update_self] at hne ⊢
          rcases hop.turns with ⟨hk, hp⟩ | ⟨hst, -⟩
          · have hne' : (w.side X).dhPeerPub ≠ S.pub b.key := by rwa [hpeer, hp] at hne
            have := ha.answers b b' bs hcs (by rw [hY]; exact hne') h' hh
            rw [hY] at this
            rw [answerIkm_of_pqKey (hpq.trans hk)]
            exact this
          · subst hcs
            cases hstands with
            | newest hX _ => rw [← hY] at hX; exact absurd hX (Role.other_ne _)
            | level _ hb => rw [hpeer] at hne; exact absurd hb.dhPeerPub hne
            | behind _ hfr => rw [hfr.step] at hst; cases hst
        · simp only [Function.update_of_ne hY] at hne ⊢
          exact ha.answers b b' bs hcs hne h' hh
      short := ha.short
      complete := fun Y b hb hp n hn => by
        have hop' : w.opened ⊆ ⟨X, frame, pt⟩ :: w.opened := List.subset_cons_self _ _
        by_cases hY : Y = X
        · subst hY
          simp only [Function.update_self, hpeer, hnRecv] at hp hn
          by_cases hmax : o.maxChains = 0
          · exact Or.inr (Or.inr (Or.inr hmax))
          rcases hop.complete (Nat.pos_of_ne_zero hmax) hn with ⟨hq, rfl⟩ | ⟨e', he'⟩ | ⟨hp', hn', hnone⟩
          · exact Or.inl ⟨_, List.mem_cons_self .., rfl, h, len, hd, hq.trans hp, rfl⟩
          · exact Or.inr (Or.inl ⟨e', by simpa only [Function.update_self, hskip, ← hp] using he'⟩)
          · refine (ha.complete Y b hb (hp'.trans hp) n hn').mono hop' (List.subset_append_right _ _) fun e' he' => ?_
            rw [hp] at hnone
            exact Or.inr (Or.inr (Or.inl (List.mem_append_left _
              (List.mem_map_of_mem (SkippedKeys.mem_stale he' hnone)))))
        · simp only [Function.update_of_ne hY] at hp hn
          refine (ha.complete Y b hb hp n hn).mono hop' (List.subset_append_right _ _) fun e he' => ?_
          exact Or.inr (Or.inl ⟨e, by simpa only [Function.update_of_ne hY] using he'⟩) }

/-! ## Every run -/

theorem Agreed.encrypt (ha : Agreed o w cs) (hi : Inv w cs) (I : S.Ideal) (X : Role) (d : EncryptDraws S)
    (pt : Bytes) (hfresh : S.pub d.newDh ∉ w.drawn) (hag : w.Agrees (.encrypt X d pt)) :
    ∃ cs', Inv (w.act o (.encrypt X d pt)) cs' ∧ Agreed o (w.act o (.encrypt X d pt)) cs' := by
  rcases hi.encrypt_cases (o := o) I X d pt with ⟨c, ds, hc, hX, hf, he⟩ | ⟨c, ds, dh, hcs, hX, hb, hdh, he⟩
  · have hm : (w.side X).mustStep = false := by simp [Ratchet.mustStep, hf.step, hf.ckSend]
    rw [World.Agrees, hm, if_neg (by decide)] at hag
    obtain ⟨h₁, hlog⟩ := hi.sealOn I hc hX hf pt
    have h₂ := ha.sealOn hi I hc rfl hlog hag
    refine ⟨cs, ?_⟩
    simp only [World.act, he, Option.toList_some, List.singleton_append]
    exact ⟨h₁.draw _, { h₂ with }⟩
  · have hm : (w.side X).mustStep = true := by simp [Ratchet.mustStep, hb.step]
    rw [World.Agrees, hm, if_pos rfl] at hag
    refine ⟨nextChain (w.side X) X c.key d dh :: cs, ?_⟩
    have hi₁ := hi.openChain (o := o) I hcs hX hb hfresh hdh
    have ha₁ := ha.openChain hi I hcs hX hb hfresh hdh hag
    have hf : Front (Function.update w.side X (Ratchet.openSendChain o (w.side X) d dh) X)
        (nextChain (w.side X) X c.key d dh) (c :: ds) := by
      simp only [Function.update_self]
      exact hb.openChain
    have ho : (nextChain (w.side X) X c.key d dh).owner = X := rfl
    obtain ⟨hi₂, hlog⟩ := hi₁.sealOn I (List.mem_cons_self ..) ho hf pt
    have ha₂ := ha₁.sealOn hi₁ I (List.mem_cons_self ..) rfl hlog (by simp)
    simp only [Function.update_self, Function.update_idem, nSend_openSendChain, KeyChain.chainAt_zero,
      nextChain_key] at hi₂ ha₂
    simp only [World.act, he, Option.toList_some, List.singleton_append]
    exact ⟨hi₂, ha₂⟩

theorem Agreed.reach (I : S.Ideal) {hs : Session S} {now : Role → Time}
    (h : Reach (World.act o) (fun w a => w.Ok a ∧ w.Agrees a) (World.start hs now) w) :
    ∃ cs, Inv w cs ∧ Agreed o w cs := by
  refine h.invariant (I := fun w => ∃ cs, Inv w cs ∧ Agreed o w cs) ⟨_, Inv.start hs now, Agreed.start hs now⟩ ?_
  intro w a hw hok
  obtain ⟨cs, hi, ha⟩ := hw
  cases a with
  | encrypt X d pt => exact ha.encrypt hi I X d pt hok.1 hok.2
  | decrypt X d seen frame => exact ⟨cs, hi.decrypt I X d hok.1 frame, ha.decrypt hi I X d hok.1 frame⟩

/-! ## Opening -/

/-- The header asks for no jump above the bound. -/
def JumpOk (o : Opts) (s : Ratchet S) (h : Header) : Prop :=
  if h.dhPub = s.dhPeerPub then h.n - s.nRecv ≤ o.maxSkip
  else (s.ckRecv.isSome → h.pn - s.nRecv ≤ o.maxSkip) ∧ h.n ≤ o.maxSkip

instance (o : Opts) (s : Ratchet S) (h : Header) : Decidable (JumpOk o s h) :=
  inferInstanceAs (Decidable (if h.dhPub = s.dhPeerPub then h.n - s.nRecv ≤ o.maxSkip
    else (s.ckRecv.isSome → h.pn - s.nRecv ≤ o.maxSkip) ∧ h.n ≤ o.maxSkip))

/-- The side has gone past the frame on its receiving chain. -/
def Overtaken (s : Ratchet S) (h : Header) : Prop := h.dhPub = s.dhPeerPub ∧ h.n < s.nRecv

/-- The key of message `n` of `c` is the one a header of that message asks for, on the receiving chain. -/
theorem selects_receiving {c : Chain S} {h : Header} (hst : Stored s X cs) (hl : Linked cs) (hc : c ∈ cs)
    (hdh : h.dhPub = S.pub c.key) (hpeer : s.dhPeerPub = S.pub c.key)
    (hck : s.ckRecv = some (S.chain.chainAt c.ck s.nRecv)) (hjump : JumpOk o s h)
    (hahead : s.skipped.peek h.dhPub h.n = none → s.nRecv ≤ h.n) :
    Ratchet.Selects o s h (S.chain.keyAt c.ck h.n) := by
  have hsame : h.dhPub = s.dhPeerPub := hdh.trans hpeer.symm
  rw [JumpOk, if_pos hsame] at hjump
  cases hp : s.skipped.peek h.dhPub h.n with
  | some mk =>
      obtain ⟨e, he, rfl⟩ := SkippedKeys.peek_eq_some.mp hp
      obtain ⟨b, hb, -, hpub, hk, -⟩ := hst _ _ e he
      have hbc : b = c := hl.key_inj hb hc (by rw [hpub, hdh])
      rw [← hbc, ← hk]
      exact .stashed hp
  | none =>
      have hle := hahead hp
      have hsel := Ratchet.Selects.same hp hsame hck hle hjump
      rwa [KeyChain.keyAt, KeyChain.chainAt_add, Nat.add_sub_cancel' hle] at hsel

/-- The key of message `n` of the newest chain, for a side that is behind. -/
theorem selects_turning (I : S.Ideal) {c d : Chain S} {ds : List (Chain S)} {h : Header}
    (hst : Stored s X (c :: d :: ds)) (hl : Linked (c :: d :: ds)) (hf : Front s d ds)
    (hdh : h.dhPub = S.pub c.key) (hans : s.answerIkm h c.ikm.dh = some c.ikm) (hjump : JumpOk o s h) :
    Ratchet.Selects o s h (S.chain.keyAt c.ck h.n) := by
  have hne : h.dhPub ≠ s.dhPeerPub := by
    rw [hdh, hf.dhPeerPub]
    exact hl.head_not_partner (List.mem_cons_of_mem _ (List.mem_cons_self ..))
  rw [JumpOk, if_neg hne] at hjump
  have hpeek : s.skipped.peek h.dhPub h.n = none := by
    cases hp : s.skipped.peek h.dhPub h.n with
    | none => rfl
    | some mk =>
        obtain ⟨e, he, -⟩ := SkippedKeys.peek_eq_some.mp hp
        obtain ⟨b, hb, -, hpub, -, hpass⟩ := hst _ _ e he
        have hbc : b = c := hl.key_inj hb (List.mem_cons_self ..) (by rw [hpub, hdh])
        rw [hbc, Passed, if_neg (by rw [← hdh]; exact fun h => hne h.symm)] at hpass
        exact absurd (by rw [hl.partner]) (hpass d.key hf.dhSelf)
  have hclose : ∃ closing, Ratchet.closeChain o s h = .ok closing := by
    unfold Ratchet.closeChain
    cases hck : s.ckRecv with
    | none => exact ⟨[], rfl⟩
    | some ck =>
        have hadv : Ratchet.advance o ck s.nRecv h.pn = .ok (S.chain.walk ck (h.pn - s.nRecv)) :=
          Ratchet.advance_ok.mpr ⟨hjump.1 (by rw [hck]; rfl), rfl⟩
        refine ⟨(S.chain.walk ck (h.pn - s.nRecv)).1, ?_⟩
        dsimp only
        rw [hadv]
        rfl
  obtain ⟨closing, hclose⟩ := hclose
  have hdhv : S.dh d.key h.dhPub = some c.ikm.dh := by
    rw [hdh, I.dh_comm, ← hl.partner]
    exact hl.dh (List.mem_cons_self ..)
  have hck : (S.dhStep s.rk c.ikm).2 = c.ck := by rw [hf.rk, ← hl.salt, Chain.ck]
  have hsel := Ratchet.Selects.turned hpeek hne hf.dhSelf hclose hdhv hans hjump.2
  rwa [hck] at hsel

/-- A frame that was not opened is not among those handed out, whatever its bytes. -/
theorem not_handed (hi : Inv w cs) {e : Sealed S} (he : e ∈ w.sealed) {c : Chain S} (hc : c ∈ cs)
    {n : Nat} (hlog : Logged e c n) {q : Opened} (hq : q ∈ w.opened) {h : Header} {len : Nat}
    (hd : decodeHeader q.frame = some (h, len)) (hp : h.dhPub = S.pub c.key) (hn : h.n = n) :
    q.frame = e.frame := by
  obtain ⟨e', he', c', hc', h', len', hd', hlog', hf', -, -, hp', -⟩ := hi.opened q hq
  rw [hd] at hd'
  cases hd'
  have hcc : c' = c := hi.linked.key_inj hc' hc (by rw [← hp', hp])
  have hkey : e'.key = e.key := by rw [hlog'.key, hlog.key, hcc, hn]
  rw [← hf', List.inj_on_of_nodup_map hi.keys he' he hkey]

/-- The other side receives on the chain a side sends on, or can turn to it. -/
theorem Stands.facing {sX sY : Ratchet S} {c : Chain S} (hX : Stands sX X cs) (hY : Stands sY X.other cs)
    (hl : Linked cs) (hc : c ∈ cs) (hcur : sX.dhSelf.map S.pub = some (S.pub c.key)) :
    (sY.dhPeerPub = S.pub c.key ∧ sY.ckRecv = some (S.chain.chainAt c.ck sY.nRecv)) ∨
      ∃ d ds, cs = c :: d :: ds ∧ Front sY d ds := by
  -- the other side owns the newest chain and receives on the one before it
  have ahead : ∀ {b d ds}, cs = b :: d :: ds → X = b.owner.other → S.pub d.key = S.pub c.key →
      sY.dhPeerPub = S.pub c.key ∧ sY.ckRecv = some (S.chain.chainAt c.ck sY.nRecv) := by
    intro b d ds hcs hXb hk
    subst hcs
    have hdc : d = c := hl.key_inj (List.mem_cons_of_mem _ (List.mem_cons_self ..)) hc hk
    cases hY with
    | newest _ hf => exact ⟨by rw [hf.dhPeerPub, hl.partner, hdc], by rw [hf.ckRecv, ← hdc]; rfl⟩
    | level hYb _ => rw [hXb] at hYb; exact absurd hYb (Role.other_ne _)
    | behind hYb _ => rw [hXb] at hYb; exact absurd hYb (Role.other_ne _)
  cases hX with
  | @newest b ds hXb hf =>
      rw [hf.dhSelf, Option.map_some, Option.some.injEq] at hcur
      have hbc : b = c := hl.key_inj (List.mem_cons_self ..) hc hcur
      subst hbc
      cases hY with
      | newest hYb _ => rw [hXb] at hYb; exact absurd hYb (Role.other_ne _)
      | level _ hb => exact Or.inl ⟨hb.dhPeerPub, hb.ckRecv⟩
      | behind _ hf' => exact Or.inr ⟨_, _, rfl, hf'⟩
  | @level b ds hXb hb =>
      rw [hb.dhSelf] at hcur
      cases ds with
      | nil => cases hcur
      | cons d ds => exact Or.inl (ahead rfl hXb (Option.some.inj hcur))
  | @behind b d ds hXb hf =>
      rw [hf.dhSelf, Option.map_some, Option.some.injEq] at hcur
      exact Or.inl (ahead rfl hXb hcur)

/-- A key that is not set aside any more, of a message that was neither handed out nor let go, lies ahead. -/
theorem Agreed.ahead (ha : Agreed o w cs) (hi : Inv w cs) (I : S.Ideal) {e : Sealed S} (he : e ∈ w.sealed)
    {c : Chain S} (hc : c ∈ cs) {h : Header} {len : Nat} (hlog : Logged e c h.n)
    (hd : decodeHeader e.frame = some (h, len)) (hp : h.dhPub = S.pub c.key)
    (hpeer : (w.side X).dhPeerPub = S.pub c.key) (hnew : ∀ q ∈ w.opened, q.receiver = X → q.frame ≠ e.frame)
    (hevict : o.maxChains = 0 → ¬Overtaken (w.side X) h) {d : DecryptDraws S}
    (hexp : (X, h.dhPub, h.n) ∉ (w.act o (.decrypt X d w.sealed e.frame)).expired)
    (hpeek : ((w.side X).prune o d.pruneAt).skipped.peek h.dhPub h.n = none) : (w.side X).nRecv ≤ h.n := by
  by_contra hlt
  simp only [World.act, hd, Option.isNone_some, Bool.false_eq_true, if_false, List.mem_append, not_or] at hexp
  rcases ha.complete X c hc hpeer h.n (by omega) with ⟨q, hq, hqX, h', len', hd', hp', hn'⟩ | ⟨e', he'⟩ | hx | hm
  · exact hnew q hq hqX (not_handed hi he hc hlog hq hd' hp' hn')
  · rw [SkippedKeys.peek, Option.map_eq_none_iff] at hpeek
    rw [← hp] at he'
    exact hexp.1 (List.mem_map_of_mem (SkippedKeys.mem_stale he' hpeek))
  · exact hexp.2 (hp ▸ hx)
  · exact hevict hm ⟨by rw [hp, hpeer], by omega⟩

/-- Every frame of a current sending chain that was not opened opens to its own plaintext, unless it asks
for too large a jump or its key was let go. -/
def OpensCurrent (o : Opts) (w : World S) : Prop :=
  ∀ e ∈ w.sealed, ∀ h len, decodeHeader e.frame = some (h, len) →
    (w.side e.sender).dhSelf.map S.pub = some h.dhPub →
    (∀ q ∈ w.opened, q.receiver = e.sender.other → q.frame ≠ e.frame) →
    JumpOk o (w.side e.sender.other) h → (o.maxChains = 0 → ¬Overtaken (w.side e.sender.other) h) →
    ∀ d, (e.sender.other, h.dhPub, h.n) ∉ (w.act o (.decrypt e.sender.other d w.sealed e.frame)).expired →
      ((w.side e.sender.other).decrypt o (openIn w.sealed) d e.frame).2 = .ok e.pt

/-- The sides never lose one another in a run in which each hybrid step answers the key the peer holds,
and no chain runs out of counters. -/
theorem opens_current (I : S.Ideal) {hs : Session S} {now : Role → Time}
    (hr : Reach (World.act o) (fun w a => w.Ok a ∧ w.Agrees a) (World.start hs now) w) : OpensCurrent o w := by
  intro e he h len hd hcur hnew hjump hevict d hexp
  obtain ⟨cs, hi, ha⟩ := Agreed.reach I hr
  obtain ⟨c, hc, n, hlog⟩ := hi.log e he
  have hshort := ha.short e he c hc n hlog
  obtain ⟨h', hd', hp, -, hn, hct, kem, hkem⟩ := hlog.decodes I
  rw [hd] at hd'
  cases hd'
  rw [Nat.mod_eq_of_lt hshort] at hn
  subst hn
  set Y := e.sender.other with hY
  have hsel : Ratchet.Selects o ((w.side Y).prune o d.pruneAt) h (S.chain.keyAt c.ck h.n) := by
    rcases (hi.stands e.sender).facing (hi.stands e.sender.other) hi.linked hc (hp ▸ hcur) with
      ⟨hpeer, hck⟩ | ⟨b, bs, hcs, hf⟩
    · exact selects_receiving (hi.stored Y).prune hi.linked hc hp hpeer hck hjump
        (ha.ahead hi I he hc hlog hd hp hpeer hnew hevict hexp)
    · have hYc : Y = c.owner.other := by rw [hY, hlog.sender]
      have hne : (w.side Y).dhPeerPub ≠ S.pub c.key := by
        subst hcs
        rw [hf.dhPeerPub]
        exact fun h => hi.linked.head_not_partner (List.mem_cons_of_mem _ (List.mem_cons_self ..)) h.symm
      have hans := ha.answers c b bs hcs (hYc ▸ hne) h hct
      subst hcs
      exact selects_turning I (hi.stored Y).prune hi.linked (Front.of_place (s := w.side Y) rfl hf) hp (hYc ▸ hans) hjump
  have hopen : Ratchet.OpensAt (openIn w.sealed) (S.chain.keyAt c.ck h.n) h.n (e.frame.take e.aad.length)
      (e.frame.drop e.aad.length) e.pt := by
    have hin := openIn_sealed hi.key_nonce_nodup he
    rw [hlog.nonce, hlog.key] at hin
    rw [Ratchet.OpensAt, Sealed.frame, List.take_left', List.drop_left']
    · exact hin
    · rfl
    · rfl
  obtain ⟨s₁, hop⟩ := hsel.toOpens (d := d) hopen
  have hnote : ∃ s₂, Ratchet.notePeerPqPub s₁ d.coins h.pqPub = some s₂ := by
    cases hq : Ratchet.notePeerPqPub s₁ d.coins h.pqPub with
    | some s₂ => exact ⟨s₂, rfl⟩
    | none =>
        obtain ⟨p, hpq, -, hnone⟩ := Ratchet.notePeerPqPub_none.mp hq
        rw [hkem] at hpq
        obtain ⟨k, -, rfl⟩ := Option.map_eq_some_iff.mp hpq
        have := I.encapsulate_some k d.coins
        rw [hnone] at this
        cases this
  obtain ⟨s₂, hnote⟩ := hnote
  rw [Ratchet.decrypt, hd]
  simp only [Ratchet.openFrame_ok.mpr hop, hnote]

/-! ## A late frame with an old key -/

namespace Symbolic

/-- A send with a fresh key at a time, or the delivery of a frame, counted from the first sealed. -/
inductive Cmd where
  | send (X : Role) (key : UInt8) (t : Time)
  | deliver (X : Role) (i : Nat) (t : Time)

def drawsAt (t : Time) (coins : UInt8) : DecryptDraws suite := ⟨t, fun _ => t, fun _ => t, t, coins⟩

def Cmd.act (w : World suite) : Cmd → Act suite
  | .send X key t => .encrypt X ⟨key, key, t, t⟩ [key]
  | .deliver X i t =>
    .decrypt X (drawsAt t (UInt8.ofNat i)) w.sealed ((w.sealed.reverse[i]?).elim [] Sealed.frame)

def play (cmds : List Cmd) : World suite :=
  cmds.foldl (fun w c => w.act {} (c.act w)) (.start session fun _ => 0)

/-- Every step of the responder issues a key, half an hour after the last contribution. Its first frame,
number 1, is overtaken by number 2 on the same chain. -/
def upToSecondKey : List Cmd :=
  [.send .initiator 3 0, .deliver .responder 0 0, .send .responder 4 1800000, .send .responder 5 1800000,
    .deliver .initiator 2 1800000, .send .initiator 6 1800000, .deliver .responder 3 1800000,
    .send .responder 7 3600000, .deliver .initiator 4 3600000]

/-- The overtaken frame arrives: its old key is answered again, and the next step is made with that. -/
def withLateFrame : List Cmd := upToSecondKey ++ [.deliver .initiator 1 3600000, .send .initiator 8 3600000]

def withoutLateFrame : List Cmd := upToSecondKey ++ [.send .initiator 8 3600000]

theorem sealed_withLateFrame : (play withLateFrame).sealed ≠ [] := by decide

/-- The initiator's last frame. -/
def lastFrame : Sealed suite := (play withLateFrame).sealed.head sealed_withLateFrame

theorem lastFrame_decodes : (decodeHeader lastFrame.frame).isSome := by decide

def lastHeader : Header := ((decodeHeader lastFrame.frame).get lastFrame_decodes).1

theorem decode_lastFrame : ∃ len, decodeHeader lastFrame.frame = some (lastHeader, len) :=
  ⟨_, (Option.some_get lastFrame_decodes).symm⟩

/-- The responder holds its second key when the answer to its first comes: the frame does not open. -/
theorem late_key_desyncs : ∃ w : World suite,
    Reach (World.act {}) World.Ok (World.start session fun _ => 0) w ∧ ¬OpensCurrent {} w := by
  have hadm : Admits (fun w (c : Cmd) => World.act {} w (c.act w)) (fun w c => w.Ok (c.act w))
      (World.start session fun _ => 0) withLateFrame := by decide
  refine ⟨play withLateFrame, (hadm.reach .start).choose Cmd.act, fun h => ?_⟩
  obtain ⟨len, hd⟩ := decode_lastFrame
  have hopen := h lastFrame (List.head_mem _) lastHeader len hd (by decide) (by decide)
    (by decide) (fun hm => absurd hm (by decide)) (drawsAt 3600000 0) (by decide)
  have hnone : (((play withLateFrame).side lastFrame.sender.other).decrypt {}
      (openIn (play withLateFrame).sealed) (drawsAt 3600000 0) lastFrame.frame).2.toOption = none := by
    decide
  rw [hopen] at hnone
  cases hnone

/-- Without the late frame the same step agrees. -/
theorem in_step_without_late_frame : OpensCurrent {} (play withoutLateFrame) := by
  have hadm : Admits (fun w (c : Cmd) => World.act {} w (c.act w))
      (fun w c => w.Ok (c.act w) ∧ w.Agrees (c.act w)) (World.start session fun _ => 0) withoutLateFrame := by
    decide
  have hr : Reach (World.act {}) (fun w a => World.Ok w a ∧ World.Agrees w a) (World.start session fun _ => 0)
      (play withoutLateFrame) :=
    Reach.choose Cmd.act (hadm.reach .start)
  exact opens_current ideal hr

end Symbolic

end EncedoChat.Eh2
