import EncedoChat.Group.Delivery
import EncedoChat.Group.Manager

/-!
# Who decides a roster

Whatever distributions arrive, and whoever claims to send them: a roster held is one that the group's admin
attested, the admin stays, the epoch never goes back, and only members of the roster have chains here.
-/

namespace EncedoChat.Group

variable {S : Suite} {I : Identities} {E : Env S I}

/-- What the channels, the MACs and the hash of group keys are trusted for. -/
structure Authority (E : Env S I) where
  /-- What a client put on its 1:1 with us. -/
  said : I.Pub → SkdFields E → Prop
  /-- The holder of a GK made the MAC for us over this context and this text. -/
  made : Bytes → Bytes → Bytes → Prop
  /-- The group keys there are; no two of them have one id. -/
  isKey : Bytes → Prop
  distinct : ∀ a b, isKey a → isKey b → E.groupIdFromGK a = E.groupIdFromGK b → a = b

/-- The 1:1 authenticates who sent the distribution, and its MAC, if it verifies, comes from GK's holder. -/
structure Genuine (A : Authority E) (me : I.Pub) (from_ : I.Pub) (skd : SkdFields E) : Prop where
  said : A.said from_ skd
  isKey : ∀ gkPub, E.unb64 skd.gkPub = some gkPub → A.isKey gkPub
  made : ∀ gid gkPub rmac rk mac, E.unb64 skd.gid = some gid → E.unb64 skd.gkPub = some gkPub →
    skd.rmac = some rmac → E.unb64 rmac = some mac → E.rosterMacKeyFor me gkPub (macCtx E gid skd.epoch) = some rk →
    verifyRosterMac E rk skd.roster mac = true → A.made gkPub (macCtx E gid skd.epoch) (rosterBytes E skd.roster)

/-- The admin, first in the roster, sent us this roster for this group and epoch, under a MAC of GK's holder. -/
structure Attested (A : Authority E) (gkPub gid : Bytes) (epoch : E.Epoch) (roster : List I.Pub) : Prop where
  isKey : A.isKey gkPub
  bound : (E.groupIdFromGK gkPub).1 = gid
  made : A.made gkPub (macCtx E gid epoch) (rosterBytes E roster)
  said : ∃ admin skd, roster.head? = some admin ∧ A.said admin skd ∧ E.unb64 skd.gid = some gid ∧
    E.unb64 skd.gkPub = some gkPub ∧ skd.epoch = epoch ∧ skd.roster = roster

structure GroupRec.Ok (A : Authority E) (gid : Bytes) (r : GroupRec E) : Prop where
  attested : Attested A r.gkPub gid r.epoch r.roster
  group : r.session.view.gid = gid
  epoch : r.session.view.epoch = E.toU32 r.epoch
  members : r.session.view.members = r.roster
  chains : ∀ p, r.session.hasSenderKey p = true → p ∈ r.roster

/-- `r'` is what became of `r`. -/
structure GroupRec.Later (r r' : GroupRec E) : Prop where
  epoch : r.epoch ≤ r'.epoch
  admin : r'.roster.head? = r.roster.head?
  gkPub : r'.gkPub = r.gkPub
  roster : r'.epoch = r.epoch → r'.roster = r.roster

namespace GroupRec.Later

variable {r r' r'' : GroupRec E}

theorem refl (r : GroupRec E) : r.Later r := ⟨le_rfl, rfl, rfl, fun _ => rfl⟩

theorem trans (h : r.Later r') (h' : r'.Later r'') : r.Later r'' where
  epoch := h.epoch.trans h'.epoch
  admin := h'.admin.trans h.admin
  gkPub := h'.gkPub.trans h.gkPub
  roster := by
    intro he
    have he' : r'.epoch = r.epoch := le_antisymm (he ▸ h'.epoch) h.epoch
    rw [h'.roster (he.trans he'.symm), h.roster he']

end GroupRec.Later

namespace GroupManager

def Ok (A : Authority E) (m : GroupManager E) : Prop := ∀ gid r, m.recs.get gid = some r → r.Ok A gid

def Keeps (m m' : GroupManager E) : Prop :=
  ∀ gid r, m.recs.get gid = some r → ∃ r', m'.recs.get gid = some r' ∧ r.Later r'

/-- What an action may rely on. -/
def Trusted (A : Authority E) (m : GroupManager E) : ManagerAct E → Prop
  | .applySkd _ from_ skd => Genuine A m.me from_ skd
  | _ => True

variable {A : Authority E} {m m' m'' : GroupManager E} {gid : Bytes}

theorem ok_start (me : I.Pub) : Ok A (start me) := by
  intro gid r h
  simp [start] at h

theorem Keeps.refl (m : GroupManager E) : m.Keeps m := fun _ r h => ⟨r, h, .refl r⟩

theorem Keeps.trans (h : m.Keeps m') (h' : m'.Keeps m'') : m.Keeps m'' := by
  intro gid r hr
  obtain ⟨r', hr', hl⟩ := h gid r hr
  obtain ⟨r'', hr'', hl'⟩ := h' gid r' hr'
  exact ⟨r'', hr'', hl.trans hl'⟩

end GroupManager

/-! ## Chains move -/

namespace Lane

variable {l : Lane S I} {id : Nat}

theorem cur_receive (frame : Bytes) : (l.receive id frame).cur = l.cur := by
  unfold receive
  split <;> rfl

theorem cur_check (o : ReceiverOpts) (T : Task S I) (frame : Bytes) (t : Time) :
    (l.check o id T frame t).cur = l.cur := by
  have hc := check_cases o l id T frame t
  generalize l.check o id T frame t = l' at hc ⊢
  cases hc with
  | dropped => exact (settle_same l id T false).cur
  | held _ => exact (settle_same (l.hold frame t) id T false).cur
  | refused _ => exact (settle_same _ id T false).cur
  | begun _ _ _ _ => rfl

theorem cur_finish (T : Task S I) (opens : Open S) (i : Nat) (c : Candidate S.Key) (a : Session.Accepted I) (t : Time) :
    (l.finish id T opens i c a t).cur = l.cur := by
  obtain he | ⟨r, pt, -, -, he⟩ := finish_cases l id T opens i c a t
  · rw [he]
    exact (settle_same l id T false).cur
  · rw [he]
    exact (settle_same _ id T true).cur

theorem cur_resume (o : ReceiverOpts) (opens : Open S) (t : Time) : (l.resume o id opens t).cur = l.cur := by
  unfold resume
  split
  · rfl
  · split
    · exact cur_check ..
    · exact cur_finish ..

end Lane

theorem GroupSession.hasSenderKey_onLane {g : GroupSession S I} {p q : I.Pub} {f : Lane S I → Lane S I}
    (h : (g.onLane p f).hasSenderKey q = true) : q = p ∨ g.hasSenderKey q = true := by
  by_cases hq : q = p
  · exact Or.inl hq
  · right
    rwa [hasSenderKey, lane, onLane, OrdMap.get_set_ne _ _ hq] at h

theorem GroupSession.hasSenderKey_onLane_cur {g : GroupSession S I} {p q : I.Pub} {f : Lane S I → Lane S I}
    (hf : ∀ l, (f l).cur = l.cur) : (g.onLane p f).hasSenderKey q = g.hasSenderKey q := by
  by_cases hq : q = p
  · subst hq
    rw [hasSenderKey, lane, onLane, OrdMap.get_set_self, Option.getD_some, hf]
    rfl
  · rw [hasSenderKey, lane, onLane, OrdMap.get_set_ne _ _ hq]
    rfl

/-- The session moves on without a chain for anybody outside the roster. -/
theorem GroupRec.Ok.update {A : Authority E} {gid : Bytes} {r : GroupRec E} {g : GroupSession S I} (h : r.Ok A gid)
    (hview : g.view = r.session.view)
    (hchains : ∀ p, g.hasSenderKey p = true → r.session.hasSenderKey p = true ∨ p ∈ r.roster) :
    GroupRec.Ok A gid { r with session := g } where
  attested := h.attested
  group := hview ▸ h.group
  epoch := hview ▸ h.epoch
  members := hview ▸ h.members
  chains p hp := (hchains p hp).elim (h.chains p) id

namespace GroupManager

variable {A : Authority E} {m m' : GroupManager E} {gid : Bytes}

theorem get_update (m : GroupManager E) (gid gid' : Bytes) (f : GroupSession S I → GroupSession S I) :
    (m.update gid f).recs.get gid' =
      if gid' = gid then (m.recs.get gid).map fun r => { r with session := f r.session } else m.recs.get gid' := by
  unfold update
  cases hr : m.recs.get gid with
  | none =>
      dsimp only
      split
      · rename_i hg
        rw [hg, hr, Option.map_none]
      · rfl
  | some r => rw [OrdMap.get_set, Option.map_some]

theorem update_keeps (m : GroupManager E) (gid : Bytes) (f : GroupSession S I → GroupSession S I) :
    m.Keeps (m.update gid f) := by
  intro gid' r hr
  rw [get_update]
  split
  · rename_i hg
    subst hg
    rw [hr]
    exact ⟨_, rfl, le_rfl, rfl, rfl, fun _ => rfl⟩
  · exact ⟨r, hr, .refl r⟩

theorem Ok.update {f : GroupSession S I → GroupSession S I} (h : m.Ok A) (hview : ∀ g, (f g).view = g.view)
    (hchains : ∀ r, m.recs.get gid = some r → ∀ p, (f r.session).hasSenderKey p = true →
      r.session.hasSenderKey p = true ∨ p ∈ r.roster) : (m.update gid f).Ok A := by
  intro gid' r' hr'
  rw [get_update] at hr'
  split at hr'
  · rename_i hg
    subst hg
    obtain ⟨r, hr, rfl⟩ := Option.map_eq_some_iff.mp hr'
    exact (h _ r hr).update (hview r.session) (hchains r hr)
  · exact h gid' r' hr'

theorem Ok.setSenderKey {d : Draws S} {p : I.Pub} {chain : Bytes} {ctr : Option Nat} (h : m.Ok A)
    (hp : ∀ r, m.recs.get gid = some r → p ∈ r.roster) : (m.setSenderKey d gid p chain ctr).Ok A := by
  apply h.update
  · intro g
    rfl
  · intro r hr q hq
    obtain rfl | hq := GroupSession.hasSenderKey_onLane hq
    · exact Or.inr (hp r hr)
    · exact Or.inl hq

/-! ## A distribution is taken on -/

/-- What `attest` has checked of an admission. -/
structure Checked (m : GroupManager E) (from_ : I.Pub) (skd : SkdFields E) (gid : Bytes) (cur : Option (GroupRec E))
    (a : Admission E) : Prop where
  group : a.gid.1 = gid
  gkPub : E.unb64 skd.gkPub = some a.gkPub
  bound : a.gid = E.groupIdFromGK a.gkPub
  epoch : a.epoch = skd.epoch
  roster : a.roster = skd.roster
  mac : ∃ rmac rk mac, skd.rmac = some rmac ∧ E.unb64 rmac = some mac ∧
    E.rosterMacKeyFor m.me a.gkPub (macCtx E gid skd.epoch) = some rk ∧ verifyRosterMac E rk skd.roster mac = true
  admin : skd.roster.head? = some from_
  stays : ∀ c, cur = some c → c.roster.head? = skd.roster.head?

theorem attest_ok {from_ : I.Pub} {skd : SkdFields E} {cur : Option (GroupRec E)} {a : Admission E}
    (h : m.attest from_ skd gid cur = .ok a) : Checked m from_ skd gid cur a := by
  unfold attest at h
  cases hgk : E.unb64 skd.gkPub with
  | none => rw [hgk] at h; cases h
  | some gkPub =>
      rw [hgk] at h
      dsimp only at h
      split at h
      · cases h
      · rename_i hgid
        cases hrmac : skd.rmac with
        | none => rw [hrmac] at h; cases h
        | some rmac =>
            rw [hrmac] at h
            dsimp only at h
            split at h
            · rename_i rk mac hrk hmac
              split at h
              · cases h
              · rename_i hverify
                split at h
                · cases h
                · rename_i hadmin
                  split at h
                  · cases h
                  · rename_i hstays
                    split at h
                    · cases h
                    · cases h
                      refine ⟨(not_not.mp hgid).symm, hgk, rfl, rfl, rfl, ?_, not_not.mp hadmin, ?_⟩
                      · exact ⟨rmac, rk, mac, hrmac, hmac, hrk, Bool.not_eq_false _ ▸ hverify⟩
                      · rintro c rfl
                        simpa using hstays
            · cases h

/-- The ways a call of `applySkd` ends. -/
inductive Applied (m : GroupManager E) (d : Draws S) (from_ : I.Pub) (skd : SkdFields E) : GroupManager E → Prop
  | unchanged : Applied m d from_ skd m
  | chain {gid chain : Bytes} {r : GroupRec E} : m.recs.get gid = some r → from_ ∈ r.roster →
      Applied m d from_ skd (m.setSenderKey d gid from_ chain skd.ctr)
  | admitted {gid : Bytes} {a : Admission E} {session : GroupSession S I} {m' : GroupManager E} :
      E.unb64 skd.gid = some gid → Checked m from_ skd gid (m.recs.get gid) a →
      (∀ c, m.recs.get gid = some c → c.epoch < a.epoch) →
      GroupSession.create E m.me a.gid a.epoch a.roster d.random = some session →
      (m' = m.install a (m.recs.get gid) session ∨
        ∃ chain, m' = (m.install a (m.recs.get gid) session).setSenderKey d gid from_ chain skd.ctr) →
      Applied m d from_ skd m'

theorem admit_new {a : Admission E} {random : S.Key} (h : ∀ c, m.recs.get a.gid.1 = some c → c.epoch < a.epoch) :
    m.admit_ a random =
      (GroupSession.create E m.me a.gid a.epoch a.roster random).map (m.install a (m.recs.get a.gid.1)) := by
  rw [admit_, if_neg]
  intro hany
  obtain ⟨c, hc, hle⟩ := (Option.any_eq_true _ _).mp hany
  exact absurd (of_decide_eq_true hle) (not_le.mpr (h c hc))

theorem advance_cases (m : GroupManager E) (d : Draws S) (from_ : I.Pub) {skd : SkdFields E} (outcome : SkdOutcome)
    (hgid : E.unb64 skd.gid = some gid) (hnew : ∀ c, m.recs.get gid = some c → c.epoch < skd.epoch) :
    Applied m d from_ skd (m.advance d from_ skd gid (m.recs.get gid) outcome).1 := by
  unfold advance
  cases ha : m.attest from_ skd gid (m.recs.get gid) with
  | error e => exact .unchanged
  | ok a =>
      have hc := attest_ok ha
      have hnew' : ∀ c, m.recs.get gid = some c → c.epoch < a.epoch := by
        rw [hc.epoch]
        exact hnew
      dsimp only
      rw [admit_new (by rw [hc.group]; exact hnew'), hc.group]
      cases hs : GroupSession.create E m.me a.gid a.epoch a.roster d.random with
      | none => exact .unchanged
      | some session =>
          rw [Option.map_some]
          dsimp only
          split
          · exact .admitted hgid hc hnew' hs (Or.inl rfl)
          · rename_i chain _
            exact .admitted hgid hc hnew' hs (Or.inr ⟨chain, rfl⟩)

theorem applySkd_cases (m : GroupManager E) (d : Draws S) (from_ : I.Pub) (skd : SkdFields E) :
    Applied m d from_ skd (m.applySkd d from_ skd).1 := by
  unfold applySkd
  cases hgid : E.unb64 skd.gid with
  | none => exact .unchanged
  | some gid =>
      dsimp only
      cases hcur : m.recs.get gid with
      | none =>
          have := advance_cases m d from_ .joined hgid (by simp [hcur])
          rwa [hcur] at this
      | some cur =>
          dsimp only
          split
          · rename_i hlt
            have := advance_cases m d from_ .rekeyed hgid (by simpa [hcur] using hlt)
            rwa [hcur] at this
          · split
            · exact .unchanged
            · split
              · exact .unchanged
              · rename_i hmem
                split
                · exact .unchanged
                · exact .chain hcur (not_not.mp hmem)

theorem get_install {a : Admission E} {cur : Option (GroupRec E)} {session : GroupSession S I} {gid' : Bytes}
    {r : GroupRec E} (h : (m.install a cur session).recs.get gid' = some r) :
    (gid' = a.gid.1 ∧ r = ⟨session, a.gkPub, a.secret, a.roster, a.epoch, a.gk.or (cur.bind GroupRec.gk)⟩) ∨
      (gid' ≠ a.gid.1 ∧ m.recs.get gid' = some r) := by
  obtain ⟨hg, hr⟩ | h := OrdMap.get_set_some h
  · exact Or.inl ⟨hg, hr⟩
  · exact Or.inr h

section

variable {d : Draws S} {from_ : I.Pub} {skd : SkdFields E} {a : Admission E} {session : GroupSession S I}

theorem create_ok {me : I.Pub} {gid : Gid} {epoch : E.Epoch} {members : List I.Pub} {random : S.Key}
    (h : GroupSession.create E me gid epoch members random = some session) :
    session = ⟨⟨me, gid.1, E.toU32 epoch, members, gid.2⟩, newSendChain random, .empty⟩ := by
  unfold GroupSession.create at h
  split at h
  · exact (Option.some.inj h).symm
  · cases h

/-- What the group becomes is as its admin attested, and nobody has a chain yet. -/
theorem Ok.install (h : m.Ok A) (hg : Genuine A m.me from_ skd) (hgid : E.unb64 skd.gid = some gid)
    (hc : Checked m from_ skd gid (m.recs.get gid) a)
    (hs : GroupSession.create E m.me a.gid a.epoch a.roster d.random = some session) :
    (m.install a (m.recs.get gid) session).Ok A := by
  intro gid' r hr
  obtain ⟨rfl, rfl⟩ | ⟨-, hr⟩ := get_install hr
  · obtain ⟨rmac, rk, mac, hrmac, hmac, hrk, hverify⟩ := hc.mac
    have hs := create_ok hs
    subst hs
    constructor
    · constructor
      · exact hg.isKey _ hc.gkPub
      · rw [hc.bound]
      · dsimp only
        rw [hc.epoch, hc.roster, hc.group]
        exact hg.made _ _ _ _ _ hgid hc.gkPub hrmac hmac hrk hverify
      · exact ⟨from_, skd, hc.roster ▸ hc.admin, hg.said, hc.group ▸ hgid, hc.gkPub, hc.epoch.symm, hc.roster.symm⟩
    · rfl
    · rfl
    · rfl
    · intro p hp
      cases hp
  · exact h _ r hr

theorem Ok.install_keeps (h : m.Ok A) (hg : Genuine A m.me from_ skd) (hc : Checked m from_ skd gid (m.recs.get gid) a)
    (hnew : ∀ c, m.recs.get gid = some c → c.epoch < a.epoch) (session : GroupSession S I) :
    m.Keeps (m.install a (m.recs.get gid) session) := by
  intro gid' r hr
  by_cases hg' : gid' = a.gid.1
  · refine ⟨⟨session, a.gkPub, a.secret, a.roster, a.epoch, _⟩, (OrdMap.get_set ..).trans (if_pos hg'), ?_⟩
    rw [hc.group] at hg'
    subst hg'
    have hlt := hnew r hr
    have hr' := (h gid' r hr).attested
    constructor
    · exact hlt.le
    · rw [hc.stays r hr, ← hc.roster]
    · apply A.distinct
      · exact hg.isKey _ hc.gkPub
      · exact hr'.isKey
      · rw [← hc.bound]
        exact Subtype.ext (hc.group.trans hr'.bound.symm)
    · intro he
      exact absurd he hlt.ne'
  · exact ⟨r, (OrdMap.get_set_ne _ _ hg').trans hr, .refl r⟩

theorem Ok.applySkd (d : Draws S) (h : m.Ok A) (hg : Genuine A m.me from_ skd) :
    (m.applySkd d from_ skd).1.Ok A ∧ m.Keeps (m.applySkd d from_ skd).1 := by
  have hcases := applySkd_cases m d from_ skd
  generalize (m.applySkd d from_ skd).1 = m' at hcases ⊢
  cases hcases with
  | unchanged => exact ⟨h, .refl m⟩
  | chain hr hmem =>
      refine ⟨h.setSenderKey ?_, update_keeps _ _ _⟩
      intro r' hr'
      rw [hr] at hr'
      cases hr'
      exact hmem
  | @admitted _ a session _ hgid hc hnew hs hm' =>
      have hok := h.install hg hgid hc hs
      have hkeeps := h.install_keeps hg hc hnew session
      obtain rfl | ⟨chain, rfl⟩ := hm'
      · exact ⟨hok, hkeeps⟩
      · refine ⟨hok.setSenderKey ?_, hkeeps.trans (update_keeps _ _ _)⟩
        intro r hr
        obtain ⟨-, rfl⟩ | ⟨hne, -⟩ := get_install hr
        · exact List.mem_of_mem_head? (hc.roster ▸ hc.admin)
        · exact absurd hc.group.symm hne

end

theorem me_update (m : GroupManager E) (gid : Bytes) (f : GroupSession S I → GroupSession S I) :
    (m.update gid f).me = m.me := by
  unfold update
  split <;> rfl

theorem me_act (o : ReceiverOpts) (m : GroupManager E) (a : ManagerAct E) : (m.act o a).me = m.me := by
  cases a with
  | applySkd d from_ skd =>
      have hcases := applySkd_cases m d from_ skd
      rw [GroupManager.act]
      generalize (m.applySkd d from_ skd).1 = m' at hcases ⊢
      cases hcases with
      | unchanged => rfl
      | chain _ _ => exact me_update ..
      | admitted _ _ _ _ hm' =>
          obtain rfl | ⟨chain, rfl⟩ := hm'
          · rfl
          · exact me_update ..
  | receive gid p id frame => exact me_update ..
  | resume gid p id opens t => exact me_update ..

theorem Ok.act {a : ManagerAct E} (o : ReceiverOpts) (h : m.Ok A) (ha : Trusted A m a) :
    (m.act o a).Ok A ∧ m.Keeps (m.act o a) := by
  cases a with
  | applySkd d from_ skd => exact h.applySkd d ha
  | receive gid p id frame =>
      refine ⟨h.update (fun _ => rfl) ?_, update_keeps _ _ _⟩
      intro r _ q hq
      rw [GroupSession.hasSenderKey_onLane_cur fun l => l.cur_receive frame] at hq
      exact Or.inl hq
  | resume gid p id opens t =>
      refine ⟨h.update (fun _ => rfl) ?_, update_keeps _ _ _⟩
      intro r _ q hq
      rw [GroupSession.hasSenderKey_onLane_cur fun l => l.cur_resume o opens t] at hq
      exact Or.inl hq

theorem Ok.reach {o : ReceiverOpts} (h : m.Ok A) (hr : Reach (GroupManager.act o) (Trusted A) m m') : m'.Ok A ∧ m.Keeps m' := by
  refine hr.invariant (I := fun s => s.Ok A ∧ m.Keeps s) ⟨h, .refl m⟩ ?_
  rintro s a ⟨hs, hk⟩ ha
  exact ⟨(hs.act o ha).1, hk.trans (hs.act o ha).2⟩

theorem skdFor_roster {p : I.Pub} {skd : SkdFields E} (h : m.skdFor gid (some p) = .ok (some skd)) :
    p ∈ m.roster gid := by
  unfold skdFor at h
  rw [roster]
  cases hr : m.recs.get gid with
  | none => rw [hr] at h; cases h
  | some r =>
      rw [hr] at h
      dsimp only at h
      split at h
      · cases h
      · rename_i hp
        simpa using hp

/-- Wherever a run of distributions arrives, every roster held was attested for its group and epoch, and only its
members have chains or are handed ours; from any point of the run on no group is lost, goes back or changes hands.
A manager without groups is one to start from (`ok_start`). -/
theorem admission_authority (A : Authority E) (o : ReceiverOpts) (m₀ m₁ m₂ : GroupManager E) (h₀ : m₀.Ok A)
    (h₁ : Reach (act o) (Trusted A) m₀ m₁) (h₂ : Reach (act o) (Trusted A) m₁ m₂) :
    m₂.Ok A ∧ m₁.Keeps m₂ ∧ ∀ gid p skd, m₂.skdFor gid (some p) = .ok (some skd) → p ∈ m₂.roster gid := by
  obtain ⟨hok, -⟩ := h₀.reach h₁
  obtain ⟨hok', hkeeps⟩ := hok.reach h₂
  exact ⟨hok', hkeeps, fun _ _ _ => skdFor_roster⟩

end GroupManager

namespace Symbolic

/-- The one group key, and the id of its group. -/
def gk : Bytes := [7]
def group : Bytes := (env.groupIdFromGK gk).1

/-- Admin 1 makes its MAC for us, member 2. -/
def attestedMac (epoch : Nat) (roster : List UInt8) : Bytes :=
  (2 :: (gk ++ macCtx env group epoch)) ++ rosterBytes env roster

def skd (epoch : Nat) (roster : List UInt8) (mac : Bytes) : SkdFields env :=
  { gid := group, gkPub := gk, epoch, secret := [5], chain := [0, 9], ctr := some 0, roster, rmac := some mac }

/-- Three members, then two; an outsider with a roster of its own; the member who was dropped, with the old epoch. -/
def sent : List (UInt8 × SkdFields env) :=
  [(1, skd 0 [1, 2, 3] (attestedMac 0 [1, 2, 3])), (1, skd 1 [1, 2] (attestedMac 1 [1, 2])),
    (9, skd 5 [9, 2] [0]), (3, skd 0 [1, 2, 3] [])]

def authority : Authority env where
  said p skd := (p, skd) ∈ sent
  made gkPub ctx text := gkPub = gk ∧
    ((ctx = macCtx env group (0 : Nat) ∧ text = rosterBytes env [(1 : UInt8), (2 : UInt8), (3 : UInt8)]) ∨
      (ctx = macCtx env group (1 : Nat) ∧ text = rosterBytes env [(1 : UInt8), (2 : UInt8)]))
  isKey k := k = gk
  distinct _ _ ha hb _ := ha.trans hb.symm

theorem genuine_sent (e : UInt8 × SkdFields env) (he : e ∈ sent) : Genuine authority (2 : UInt8) e.1 e.2 where
  said := he
  isKey gkPub h := by
    cases h
    simp only [sent, List.mem_cons, List.not_mem_nil, or_false] at he
    obtain rfl | rfl | rfl | rfl := he <;> rfl
  made gid gkPub rmac rk mac hgid hgk hrmac hmac hrk hv := by
    cases hgid
    cases hgk
    cases hmac
    cases hrk
    simp only [sent, List.mem_cons, List.not_mem_nil, or_false] at he
    obtain rfl | rfl | rfl | rfl := he
    · exact ⟨rfl, Or.inl ⟨rfl, rfl⟩⟩
    · exact ⟨rfl, Or.inr ⟨rfl, rfl⟩⟩
    · cases hrmac
      exact absurd hv (by decide)
    · cases hrmac
      exact absurd hv (by decide)

def deliver (m : GroupManager env) (e : UInt8 × SkdFields env) : GroupManager env :=
  m.act {} (.applySkd ⟨seed, 0, 0⟩ e.1 e.2)

theorem reach_sent {m : GroupManager env} {es : List (UInt8 × SkdFields env)} (hm : m.me = (2 : UInt8)) (hes : es ⊆ sent) :
    Reach (GroupManager.act {}) (GroupManager.Trusted authority) m (es.foldl deliver m) := by
  induction es generalizing m with
  | nil => exact .start
  | cons e es ih =>
      have hstep : GroupManager.Trusted authority m (.applySkd ⟨seed, 0, 0⟩ e.1 e.2) := by
        have hg := genuine_sent e (hes List.mem_cons_self)
        rwa [← hm] at hg
      exact (Reach.step _ .start hstep).trans
        (ih ((GroupManager.me_act ..).trans hm) (List.subset_of_cons_subset hes))

/-- Us after the first invitation, and after all of `sent`. -/
def invited : GroupManager env := (sent.take 1).foldl deliver (.start (2 : UInt8))
def settled : GroupManager env := (sent.drop 1).foldl deliver invited

theorem settled_authority : (settled.Ok authority ∧ invited.Keeps settled ∧
    ∀ gid p skd, settled.skdFor gid (some p) = .ok (some skd) → p ∈ settled.roster gid) ∧
    List.length (settled.roster group) = 2 := by
  constructor
  · apply GroupManager.admission_authority authority {} (.start (2 : UInt8)) _ _ (GroupManager.ok_start _)
    · exact reach_sent rfl (List.take_subset 1 sent)
    · exact reach_sent rfl (List.drop_subset 1 sent)
  · decide

end Symbolic

end EncedoChat.Group
