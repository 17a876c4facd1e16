import EncedoChat.Groups.Origins

/-!
# Restoring what was written down

`restore` lays the chains of a snapshot over the session that the group has by then, new or not. Nothing goes
wrong exactly when the last snapshot of every group is at least as new as what it meets.
-/

namespace EncedoChat.Groups

open EncedoChat.Group (Suite Identities Env Session SendChain SenderReceiver Gid SkdFields SkdOutcome SkdError Open Time
  ReceiverOpts newSendChain)

variable {S : Suite} {I : Identities} {E : Env S I} {B : Backend}

/-- Texts and keys are read back as they were written. -/
structure Texts (E : Env S I) : Prop where
  unb64_b64 : ∀ b, E.unb64 (E.b64 b) = some b
  bytesKey_keyBytes : ∀ k, E.bytesKey (E.keyBytes k) = k

/-! ## Chains that come back -/

namespace GroupSession

variable {g g' : GroupSession S I}

theorem nodup_exportChains (g : GroupSession S I) : (g.exportChains.receivers.map Prod.fst).Nodup := by
  have := g.receivers.nodup
  simpa [exportChains, Function.comp_def] using this

theorem exportChains_importChains {c : Chains S I} (h : (c.receivers.map Prod.fst).Nodup) :
    (g.importChains c).exportChains = c := by
  obtain ⟨send, receivers⟩ := c
  simp only [importChains, exportChains]
  rw [OrdMap.entries_foldl_set h (by simp [OrdMap.keys, OrdMap.empty])]
  simp [OrdMap.empty, SenderReceiver.snapshot, SenderReceiver.make, Function.comp_def]

/-- Where the chains stand is all that is exported of them. -/
theorem Belongs.congr {o : Origins E} {gid : Bytes} {epoch : E.Epoch} (h : g.Belongs o gid epoch)
    (he : g'.exportChains = g.exportChains) : g'.Belongs o gid epoch := by
  obtain ⟨hsend, hrecv⟩ := Chains.mk.inj he
  obtain ⟨hkey, hn⟩ := Prod.mk.inj hsend
  constructor
  · rw [hkey, hn]
    exact h.send_
  · intro p r hr
    have hmem : (p, r.snapshot) ∈ g.receivers.entries.map fun e => (e.1, e.2.snapshot) :=
      hrecv ▸ List.mem_map_of_mem (OrdMap.get_eq_some.mp hr)
    obtain ⟨⟨q, r'⟩, hr', heq⟩ := List.mem_map.mp hmem
    obtain ⟨rfl, hsnap⟩ := Prod.mk.inj heq
    obtain ⟨hkey, hn⟩ := Prod.mk.inj hsnap
    rw [← hkey, ← hn]
    exact h.receivers q r' (OrdMap.get_eq_some.mpr hr')

end GroupSession

namespace GroupManager

variable {T : Texts E} {o : Origins E} {m m' : GroupManager E B} {gid : Bytes} {r : GroupRec E B}

theorem readGid_b64 (T : Texts E) (g : Gid) : readGid (E.b64 g.1) = some g := by
  simp [readGid, T.unb64_b64, g.2]

theorem regain_snapshot (T : Texts E) (h : ∀ gk, r.gk = some gk → gk.Kept) : regain r.snapshot = some r.gk := by
  cases hgk : r.gk with
  | none => simp [regain, GroupRec.snapshot, hgk]
  | some gk =>
      have hkept := h gk hgk
      cases gk with
      | hem kid =>
          have hw : B.wired = true := hkept
          simp [regain, GroupRec.snapshot, hgk, AdminGk.kid, hw]
      | software priv =>
          obtain ⟨pub, hpub⟩ := Option.isSome_iff_exists.mp hkept
          simp [regain, GroupRec.snapshot, hgk, AdminGk.kid, AdminGk.priv, T.unb64_b64, softwareGkFromPriv, hpub]

theorem admissionOf_snapshot (T : Texts E) {me : I.Pub} (h : r.Framed me gid) :
    ∃ g : Gid, g.1 = gid ∧ r.session.view.gid = gid ∧
      admissionOf r.snapshot = some ⟨g, r.gkPub, r.epoch, r.secret, r.roster, r.gk⟩ := by
  obtain ⟨g, rfl, hv⟩ := h.view
  refine ⟨g, rfl, by rw [hv], ?_⟩
  rw [admissionOf, regain_snapshot T h.gk]
  simp [GroupRec.snapshot, hv, readGid_b64 T, T.unb64_b64]

theorem chainsOf_snapshot (T : Texts E) (r : GroupRec E B) :
    chainsOf r.snapshot = some r.session.exportChains := by
  have hrecv : ∀ l : List (I.Pub × S.Key × Nat),
      (l.map fun e => (e.1, E.b64 (E.keyBytes e.2.1), e.2.2)).mapM
        (fun r => (E.unb64 r.2.1).map fun k => (r.1, E.bytesKey k, r.2.2)) = some l := by
    intro l
    induction l with
    | nil => rfl
    | cons e l ih => simp [List.mapM_cons, T.unb64_b64, T.bytesKey_keyBytes, ih]
  simp only [chainsOf, GroupRec.snapshot, T.unb64_b64, T.bytesKey_keyBytes, Option.bind_some, hrecv, Option.map_some]

/-! ## One snapshot comes back -/

/-- What is held of a group once the snapshot of `r` has come back to it; `cur` was held before. -/
structure Restored (me : I.Pub) (gid : Bytes) (cur : Option (GroupRec E B)) (r r' : GroupRec E B) : Prop where
  framed : r'.Framed me gid
  chains : r'.session.exportChains = r.session.exportChains
  epoch : r'.epoch = cur.elim r.epoch fun c => max c.epoch r.epoch
  alone : cur = none → r'.snapshot = r.snapshot

theorem restoreOne_snapshot (T : Texts E) (random : S.Key) (hr : r.Framed m.me gid) (hm : m.Framed) :
    ∃ r', m.restoreOne random r.snapshot = (⟨m.me, m.recs.set gid r'⟩, some gid) ∧
      Restored m.me gid (m.recs.get gid) r r' := by
  obtain ⟨g, rfl, hview, ha⟩ := admissionOf_snapshot T hr
  have hchains : ∀ s : GroupSession S I, (s.importChains r.session.exportChains).exportChains = r.session.exportChains :=
    fun s => GroupSession.exportChains_importChains r.session.nodup_exportChains
  have hkid : r.snapshot.memberGkKid = r.memberGkKid := rfl
  rw [restoreOne, ha]
  dsimp only
  by_cases hcur : ∃ c, m.recs.get g.1 = some c ∧ r.epoch ≤ c.epoch
  · obtain ⟨c, hc, hle⟩ := hcur
    have hok := hm g.1 c hc
    rw [admit_, hc, if_pos (by simpa using hle)]
    dsimp only
    rw [chainsOf_snapshot T, updateRec_held hc]
    dsimp only
    rw [update, updateRec_set]
    refine ⟨_, rfl, ?_⟩
    constructor
    · exact ⟨hok.view, hok.decodes, hok.gk⟩
    · exact hchains _
    · exact (max_eq_left hle).symm
    · simp
  · have hnew : ∀ c, m.recs.get g.1 = some c → c.epoch < r.epoch :=
      fun c hc => lt_of_not_ge fun hle => hcur ⟨c, hc, hle⟩
    rw [admit_, if_neg, GroupSession.create, if_pos hr.decodes, Option.map_some]
    · dsimp only
      rw [chainsOf_snapshot T, install, updateRec_set]
      dsimp only
      rw [update, updateRec_set]
      refine ⟨_, rfl, ?_⟩
      constructor
      · exact ⟨⟨g, rfl, rfl⟩, hr.decodes, fun gk hgk => kept_or hm hr.gk hgk⟩
      · exact hchains _
      · cases hc : m.recs.get g.1 with
        | none => rfl
        | some c => exact (max_eq_right (hnew c hc).le).symm
      · intro hnone
        simp only [hnone, Option.bind_none, Option.or_none, hkid]
        rw [GroupRec.snapshot, GroupRec.snapshot]
        simp only [hchains, hview]
        rfl
    · intro hany
      obtain ⟨c, hc, hle⟩ := (Option.any_eq_true _ _).mp hany
      exact hcur ⟨c, hc, of_decide_eq_true hle⟩

/-! ## A list of snapshots comes back -/

theorem Framed.set (hm : m.Framed) {r' : GroupRec E B} (h : r'.Framed m.me gid) :
    Framed ⟨m.me, m.recs.set gid r'⟩ := by
  intro gid' c hc
  obtain ⟨rfl, rfl⟩ | ⟨-, hc⟩ := OrdMap.get_set_some hc
  · exact h
  · exact hm gid' c hc

variable {random : Nat → S.Key} {i : Nat} {rs pre post : List (GroupRec E B)}

theorem restoreFrom_cons (T : Texts E) (random : Nat → S.Key) (i : Nat) (rs : List (GroupRec E B)) (hm : m.Framed)
    (hr : r.Framed m.me gid) :
    ∃ r', Restored m.me gid (m.recs.get gid) r r' ∧ Framed ⟨m.me, m.recs.set gid r'⟩ ∧
      m.restoreFrom random i ((r :: rs).map GroupRec.snapshot) =
        ((restoreFrom random ⟨m.me, m.recs.set gid r'⟩ (i + 1) (rs.map GroupRec.snapshot)).1,
         (restoreFrom random ⟨m.me, m.recs.set gid r'⟩ (i + 1) (rs.map GroupRec.snapshot)).2.map (gid :: ·)) := by
  obtain ⟨r', he, hres⟩ := restoreOne_snapshot T (random i) hr hm
  refine ⟨r', hres, hm.set hres.framed, ?_⟩
  rw [List.map_cons, restoreFrom, he]

/-- Each record's group is the one its session is for. -/
def Named (me : I.Pub) (rs : List (GroupRec E B)) : Prop := ∀ r ∈ rs, r.Framed me r.session.view.gid

theorem Named.tail {me : I.Pub} (h : Named me (r :: rs)) : Named me rs := fun c hc => h c (List.mem_cons_of_mem _ hc)

theorem Named.head {me : I.Pub} (h : Named me (r :: rs)) : r.Framed me r.session.view.gid := h r (List.mem_cons_self ..)

theorem isSome_restoreFrom (T : Texts E) (hm : m.Framed) (hrs : Named m.me rs) :
    (m.restoreFrom random i (rs.map GroupRec.snapshot)).2.isSome = true := by
  induction rs generalizing m i with
  | nil => rfl
  | cons r rs ih =>
      obtain ⟨r', -, hm', he⟩ := restoreFrom_cons T random i rs hm hrs.head
      rw [he, Option.isSome_map]
      exact ih hm' hrs.tail

theorem framed_restore (T : Texts E) (random : Nat → S.Key) (hm : m.Framed) (hrs : Named m.me rs) :
    (m.restore random (rs.map GroupRec.snapshot)).1.Framed ∧ (m.restore random (rs.map GroupRec.snapshot)).1.me = m.me := by
  rw [restore]
  generalize 0 = i
  induction rs generalizing m i with
  | nil => exact ⟨hm, rfl⟩
  | cons r rs ih =>
      obtain ⟨r', -, hm', he⟩ := restoreFrom_cons T random i rs hm hrs.head
      rw [he]
      exact ih hm' hrs.tail (i + 1)

/-- A group with no snapshot in the list stays as it is. -/
theorem get_restoreFrom_other (T : Texts E) (hm : m.Framed) (hrs : Named m.me rs)
    (hne : ∀ r ∈ rs, r.session.view.gid ≠ gid) :
    (m.restoreFrom random i (rs.map GroupRec.snapshot)).1.recs.get gid = m.recs.get gid := by
  induction rs generalizing m i with
  | nil => rfl
  | cons r rs ih =>
      obtain ⟨r', -, hm', he⟩ := restoreFrom_cons T random i rs hm hrs.head
      rw [he, ih hm' hrs.tail fun c hc => hne c (List.mem_cons_of_mem _ hc)]
      exact OrdMap.get_set_ne _ _ (hne r (List.mem_cons_self ..)).symm

theorem Restored.epoch_le {me : I.Pub} {cur : Option (GroupRec E B)} {r' : GroupRec E B}
    (h : Restored me gid cur r r') (b : E.Epoch) :
    r'.epoch ≤ b ↔ r.epoch ≤ b ∧ ∀ c, cur = some c → c.epoch ≤ b := by
  rw [h.epoch]
  cases cur with
  | none => simp
  | some c => simp [and_comm]

/-- The last snapshot of a group brings its chains; the epoch held is the latest there was. -/
theorem get_restoreFrom_last (T : Texts E) (random : Nat → S.Key) (i : Nat) (hm : m.Framed)
    (hrs : Named m.me (pre ++ r :: post)) (hlast : ∀ c ∈ post, c.session.view.gid ≠ r.session.view.gid) :
    ∃ r', (m.restoreFrom random i ((pre ++ r :: post).map GroupRec.snapshot)).1.recs.get r.session.view.gid = some r' ∧
      r'.session.exportChains = r.session.exportChains ∧
      ∀ b, r'.epoch ≤ b ↔ r.epoch ≤ b ∧ (∀ c, m.recs.get r.session.view.gid = some c → c.epoch ≤ b) ∧
        ∀ c ∈ pre, c.session.view.gid = r.session.view.gid → c.epoch ≤ b := by
  induction pre generalizing m i with
  | nil =>
      obtain ⟨r', hres, hm', he⟩ := restoreFrom_cons T random i post hm hrs.head
      refine ⟨r', ?_, hres.chains, ?_⟩
      · rw [List.nil_append, he, get_restoreFrom_other T hm' hrs.tail hlast]
        exact OrdMap.get_set_self ..
      · intro b
        rw [hres.epoch_le]
        simp
  | cons s pre ih =>
      obtain ⟨s', hres, hm', he⟩ :=
        restoreFrom_cons T random i (pre ++ r :: post) hm hrs.head
      obtain ⟨r', hr', hchains, hepoch⟩ := ih (i + 1) hm' hrs.tail
      refine ⟨r', ?_, hchains, ?_⟩
      · rw [List.cons_append, he]
        exact hr'
      · intro b
        rw [hepoch, List.forall_mem_cons]
        by_cases hg : s.session.view.gid = r.session.view.gid
        · have hs' := hres.epoch_le b
          rw [hg] at hs' ⊢
          simp only [OrdMap.get_set_self, Option.some.injEq, forall_eq', hs']
          tauto
        · have hg' : r.session.view.gid ≠ s.session.view.gid := fun h => hg h.symm
          simp only [OrdMap.get_set_ne _ _ hg', hg, false_implies, true_and]

/-! ## Nothing else comes back to an empty manager -/

theorem entries_restoreFrom_new (T : Texts E) (hm : m.Framed) (hrs : Named m.me rs)
    (hnd : (rs.map fun r => r.session.view.gid).Nodup) (hnew : ∀ r ∈ rs, m.recs.get r.session.view.gid = none) :
    (m.restoreFrom random i (rs.map GroupRec.snapshot)).1.snapshot = m.snapshot ++ rs.map GroupRec.snapshot := by
  induction rs generalizing m i with
  | nil => simp [restoreFrom]
  | cons r rs ih =>
      obtain ⟨r', hres, hm', he⟩ := restoreFrom_cons T random i rs hm hrs.head
      rw [List.map_cons, List.nodup_cons] at hnd
      have hr := hnew r (List.mem_cons_self ..)
      have hset : (m.recs.set r.session.view.gid r').entries = m.recs.entries ++ [(r.session.view.gid, r')] :=
        OrdMap.insertEntry_new (OrdMap.get_eq_none.mp hr)
      rw [he, ih hm' hrs.tail hnd.2]
      · simp [GroupManager.snapshot, hset, hres.alone hr]
      · intro c hc
        refine (OrdMap.get_set_ne _ _ ?_).trans (hnew c (List.mem_cons_of_mem _ hc))
        intro h
        exact hnd.1 (h ▸ List.mem_map_of_mem hc)

end GroupManager

/-! ## Processes of one member, one after another -/

/-- The manager there is now, where its chains come from, and every snapshot taken so far. -/
structure World (E : Env S I) (B : Backend) where
  manager : GroupManager E B
  origins : Origins E
  taken : List (GroupSnapshot E B)

inductive Act (E : Env S I) (B : Backend) where
  | createGroupWithNewKey (d : GroupManager.KeyDraws B) (random : S.Key) (secret : Bytes) (roster : List (Member I B))
  | rekey (gid : Bytes) (random : S.Key) (secret : Bytes) (newRoster : List (Member I B))
  | applySkd (random : S.Key) (from_ : I.Pub) (skd : SkdFields E)
  | dropGroup (gid : Bytes)
  | setMemberGkKid (gid : Bytes) (kid : Option B.Kid)
  | send (gid : Bytes)
  | receive (gid : Bytes) (p : I.Pub) (o : ReceiverOpts) (opens : Open S) (t t' : Time) (n : Nat) (header ct : Bytes)
  | snapshot
  | restart
  | restore (random : Nat → S.Key) (snaps : List (GroupSnapshot E B))

namespace GroupSnapshot

/-- The sending chain written down starts at `seed`. -/
def OnChain (seed : S.Key) (s : GroupSnapshot E B) : Prop :=
  ∃ key, E.unb64 s.send.1 = some key ∧ Groups.OnChain seed (E.bytesKey key) s.send.2

end GroupSnapshot

/-- The last snapshot of each group is of no earlier epoch than the ones before it and than what is held, and no
further back on the chain that is held. -/
def Current (Start : S.Key → Prop) (m : GroupManager E B) (snaps : List (GroupSnapshot E B)) : Prop :=
  ∀ pre s post, snaps = pre ++ s :: post → (∀ s' ∈ post, s'.gid ≠ s.gid) →
    (∀ s' ∈ pre, s'.gid = s.gid → s'.epoch ≤ s.epoch) ∧
    ∀ gid r, E.unb64 s.gid = some gid → m.recs.get gid = some r → r.epoch ≤ s.epoch ∧
      ∀ seed, Start seed → OnChain seed r.session.send_.key r.session.send_.n → s.OnChain seed →
        r.session.send_.n ≤ s.send.2

/-- Every session's chains are of its own epoch. -/
def OwnChains (o : Origins E) (m : GroupManager E B) : Prop :=
  ∀ gid r, m.recs.get gid = some r → r.session.Belongs o gid r.epoch

/-- No counter of a sending chain goes back. -/
def NoRewind (Start : S.Key → Prop) (m m' : GroupManager E B) : Prop :=
  ∀ gid r r' seed, m.recs.get gid = some r → m'.recs.get gid = some r' → Start seed →
    OnChain seed r.session.send_.key r.session.send_.n → OnChain seed r'.session.send_.key r'.session.send_.n →
      r.session.send_.n ≤ r'.session.send_.n

namespace World

def start (me : I.Pub) : World E B := ⟨.start me, ⟨.empty, []⟩, []⟩

def act (w : World E B) : Act E B → World E B
  | .createGroupWithNewKey d random secret roster =>
    { w with
      manager := (w.manager.createGroupWithNewKey d random secret roster).getD w.manager
      origins := (GroupManager.mint B d).elim w.origins fun made =>
        w.origins.draw random (E.groupIdFromGK made.2).1 E.zero }
  | .rekey gid random secret newRoster =>
    { w with
      manager := (w.manager.rekey random secret gid newRoster).getD w.manager
      origins := (w.manager.recs.get gid).elim w.origins fun r =>
        w.origins.draw random r.session.view.gid (E.next r.epoch) }
  | .applySkd random from_ skd =>
    { w with
      manager := (w.manager.applySkd random from_ skd).1
      origins := (E.unb64 skd.gid).elim w.origins fun gid => (w.origins.draw random gid skd.epoch).carry from_ skd }
  | .dropGroup gid => { w with manager := w.manager.dropGroup gid }
  | .setMemberGkKid gid kid => { w with manager := w.manager.setMemberGkKid gid kid }
  | .send gid => { w with manager := w.manager.update gid GroupSession.sealed }
  | .receive gid p o opens t t' n header ct =>
    { w with manager := w.manager.update gid fun g => g.openAt o p opens t t' n header ct }
  | .snapshot => { w with taken := w.taken ++ w.manager.snapshot }
  | .restart => { w with manager := .start w.manager.me }
  | .restore random snaps => { w with manager := (w.manager.restore random snaps).1 }

/-- Chains are drawn afresh, and what is restored was taken, and is current. -/
def Sound (Start : S.Key → Prop) (w : World E B) : Act E B → Prop
  | .createGroupWithNewKey _ random _ _ | .rekey _ random _ _ | .applySkd random _ _ =>
    Start random ∧ w.origins.drawn.get random = none
  | .restore _ snaps => (∀ s ∈ snaps, s ∈ w.taken) ∧ Current Start w.manager snaps
  | _ => True

structure Inv (Start : S.Key → Prop) (w : World E B) : Prop where
  manager : w.manager.Ok w.origins
  taken : ∀ s ∈ w.taken, ∃ r : GroupRec E B, r.Ok w.origins w.manager.me r.session.view.gid ∧ s = r.snapshot
  drawn : ∀ seed x, w.origins.drawn.get seed = some x → Start seed

end World

/-! ## What a restore leaves -/

theorem exists_last {α : Type} {p : α → Prop} {l : List α} (h : ∃ a ∈ l, p a) :
    ∃ pre a post, l = pre ++ a :: post ∧ p a ∧ ∀ b ∈ post, ¬p b := by
  induction l with
  | nil => simp at h
  | cons a l ih =>
      by_cases hl : ∃ b ∈ l, p b
      · obtain ⟨pre, b, post, rfl, hb, hpost⟩ := ih hl
        exact ⟨a :: pre, b, post, rfl, hb, hpost⟩
      · obtain ⟨b, hb, hp⟩ := h
        obtain rfl | hb := List.mem_cons.mp hb
        · exact ⟨[], b, l, rfl, hp, fun c hc hp => hl ⟨c, hc, hp⟩⟩
        · exact absurd ⟨b, hb, hp⟩ hl

section

variable {Start : S.Key → Prop} {o : Origins E} {m : GroupManager E B} {rs : List (GroupRec E B)}
  {random : Nat → S.Key}

theorem GroupRec.Framed.gid {me : I.Pub} {gid : Bytes} {r : GroupRec E B} (h : r.Framed me gid) :
    r.session.view.gid = gid := by
  obtain ⟨g, rfl, hv⟩ := h.view
  rw [hv]

theorem gid_snapshot (T : Texts E) {r r' : GroupRec E B} :
    r.snapshot.gid = r'.snapshot.gid ↔ r.session.view.gid = r'.session.view.gid := by
  constructor
  · intro h
    have h' := congrArg E.unb64 h
    simpa [GroupRec.snapshot, T.unb64_b64] using h'
  · intro h
    simp [GroupRec.snapshot, h]

theorem onChain_snapshot (T : Texts E) {r : GroupRec E B} {seed : S.Key} :
    r.snapshot.OnChain seed ↔ OnChain seed r.session.send_.key r.session.send_.n := by
  simp [GroupSnapshot.OnChain, GroupRec.snapshot, GroupSession.exportChains, T.unb64_b64, T.bytesKey_keyBytes]

theorem send_of_exportChains {g g' : GroupSession S I} (h : g'.exportChains = g.exportChains) :
    g'.send_.key = g.send_.key ∧ g'.send_.n = g.send_.n :=
  Prod.mk.inj (Chains.mk.inj h).1

theorem restored_of_current (T : Texts E) (hm : m.Ok o) (hrs : ∀ r ∈ rs, r.Ok o m.me r.session.view.gid)
    (hcur : Current Start m (rs.map GroupRec.snapshot)) :
    OwnChains o (m.restore random (rs.map GroupRec.snapshot)).1 ∧
      NoRewind Start m (m.restore random (rs.map GroupRec.snapshot)).1 := by
  have hnamed : GroupManager.Named m.me rs := fun r hr => (hrs r hr).framed
  -- either the group has no snapshot in the list, or its last one decides
  have hcase : ∀ gid r', (m.restore random (rs.map GroupRec.snapshot)).1.recs.get gid = some r' →
      m.recs.get gid = some r' ∨ ∃ r : GroupRec E B, r.Ok o m.me gid ∧ r'.session.exportChains = r.session.exportChains ∧
        r'.epoch = r.epoch ∧ ∀ c, m.recs.get gid = some c → ∀ seed, Start seed →
          OnChain seed c.session.send_.key c.session.send_.n → OnChain seed r.session.send_.key r.session.send_.n →
            c.session.send_.n ≤ r.session.send_.n := by
    intro gid r' hr'
    by_cases hin : ∃ r ∈ rs, r.session.view.gid = gid
    · obtain ⟨pre, r, post, rfl, rfl, hpost⟩ := exists_last hin
      right
      obtain ⟨r'', hr'', hchains, hepoch⟩ :=
        GroupManager.get_restoreFrom_last T random 0 hm.framed hnamed hpost
      obtain ⟨hpre, hheld⟩ := hcur (pre.map GroupRec.snapshot) r.snapshot (post.map GroupRec.snapshot)
        (by simp) (by
          intro s hs
          obtain ⟨c, hc, rfl⟩ := List.mem_map.mp hs
          rw [ne_eq, gid_snapshot T]
          exact hpost c hc)
      have hgid : E.unb64 r.snapshot.gid = some r.session.view.gid := T.unb64_b64 _
      have he : r'' = r' := Option.some.inj (hr''.symm.trans hr')
      subst he
      refine ⟨r, hrs r (by simp), hchains, le_antisymm ((hepoch r.epoch).mpr ⟨le_rfl, ?_, ?_⟩) ?_, ?_⟩
      · exact fun c hc => (hheld _ c hgid hc).1
      · exact fun c hc hg => hpre c.snapshot (List.mem_map_of_mem hc) ((gid_snapshot T).mpr hg)
      · exact ((hepoch r''.epoch).mp le_rfl).1
      · intro c hc seed hs hon hon'
        exact (hheld _ c hgid hc).2 seed hs hon ((onChain_snapshot T).mpr hon')
    · left
      rw [← hr', GroupManager.restore, GroupManager.get_restoreFrom_other T hm.framed hnamed]
      exact fun r hr hg => hin ⟨r, hr, hg⟩
  constructor
  · intro gid r' hr'
    obtain h | ⟨r, hok, hchains, hepoch, -⟩ := hcase gid r' hr'
    · exact (hm gid r' h).chains
    · exact hepoch ▸ hok.chains.congr hchains
  · intro gid c r' seed hc hr' hs hon hon'
    obtain h | ⟨r, -, hchains, -, hle⟩ := hcase gid r' hr'
    · rw [hc] at h
      cases h
      exact Nat.le_refl _
    · obtain ⟨hkey, hn⟩ := send_of_exportChains hchains
      rw [hn]
      rw [hkey, hn] at hon'
      exact hle c hc seed hs hon hon'

theorem current_of_restored (T : Texts E) (hideal : S.chain.Ideal Start) (hm : m.Ok o)
    (hseed : ∀ seed x, o.drawn.get seed = some x → Start seed) (hrs : ∀ r ∈ rs, r.Ok o m.me r.session.view.gid)
    (hown : OwnChains o (m.restore random (rs.map GroupRec.snapshot)).1)
    (hback : NoRewind Start m (m.restore random (rs.map GroupRec.snapshot)).1) :
    Current Start m (rs.map GroupRec.snapshot) := by
  intro pre' s post' hsplit hpost'
  obtain ⟨pre, rest, rfl, rfl, hrest⟩ := List.map_eq_append_iff.mp hsplit
  obtain ⟨r, post, rfl, rfl, rfl⟩ := List.map_eq_cons_iff.mp hrest
  have hpost : ∀ c ∈ post, c.session.view.gid ≠ r.session.view.gid :=
    fun c hc h => hpost' c.snapshot (List.mem_map_of_mem hc) ((gid_snapshot T).mpr h)
  obtain ⟨r', hr', hchains, hepoch⟩ :=
    GroupManager.get_restoreFrom_last T random 0 hm.framed (fun r hr => (hrs r hr).framed) hpost
  obtain ⟨hkey, hn⟩ := send_of_exportChains hchains
  -- the chain that came back was drawn once, so the epoch it is held at is the epoch it is of
  have he : r'.epoch = r.epoch := by
    obtain ⟨seed, hd, hon⟩ := (hown _ r' hr').send_
    obtain ⟨seed', hd', hon'⟩ := (hrs r (by simp)).chains.send_
    rw [hkey, hn] at hon
    obtain ⟨rfl, -⟩ := hideal.chainAt_eq (hseed _ _ hd) (hseed _ _ hd') (hon.symm.trans hon')
    rw [hd'] at hd
    exact (Prod.mk.inj (Option.some.inj hd)).2.symm
  obtain ⟨-, hheld, hpre⟩ := (hepoch r.epoch).mp he.le
  refine ⟨?_, ?_⟩
  · intro s' hs' hg
    obtain ⟨c, hc, rfl⟩ := List.mem_map.mp hs'
    exact hpre c hc ((gid_snapshot T).mp hg)
  · intro gid c hgid hc
    have hgid' : r.session.view.gid = gid := by
      simpa [GroupRec.snapshot, T.unb64_b64] using hgid
    subst hgid'
    refine ⟨hheld c hc, ?_⟩
    intro seed hs hon hon'
    have := hback _ c r' seed hc hr' hs hon
    rw [hkey, hn] at this
    exact this ((onChain_snapshot T).mp hon')

theorem GroupManager.snapshot_restore (T : Texts E) (hm : m.Framed) :
    (GroupManager.restore random (.start m.me : GroupManager E B) m.snapshot).1.snapshot = m.snapshot := by
  have hmem : ∀ e ∈ m.recs.entries, e.2.Framed m.me e.1 := fun e he => hm e.1 e.2 (OrdMap.get_eq_some.mpr he)
  have hsnap : m.snapshot = (m.recs.entries.map Prod.snd).map GroupRec.snapshot := by
    simp [GroupManager.snapshot, Function.comp_def]
  have hgids : (m.recs.entries.map Prod.snd).map (fun r => r.session.view.gid) = m.recs.entries.map Prod.fst := by
    rw [List.map_map]
    apply List.map_congr_left
    intro e he
    exact (hmem e he).gid
  rw [hsnap, GroupManager.restore, GroupManager.entries_restoreFrom_new T]
  · rfl
  · intro gid r h
    cases h
  · intro r hr
    obtain ⟨e, he, rfl⟩ := List.mem_map.mp hr
    rw [(hmem e he).gid]
    exact hmem e he
  · rw [hgids]
    exact m.recs.nodup
  · intro r _
    rfl

end

/-! ## The worlds that a run reaches -/

namespace World

variable {Start : S.Key → Prop} {w : World E B}

theorem inv_start (me : I.Pub) : (start me : World E B).Inv Start where
  manager := GroupManager.ok_start _ _
  taken s hs := by cases hs
  drawn seed x h := by cases h

/-- Ghost records grow, and the snapshots taken stay what they are. -/
theorem Inv.grow (h : w.Inv Start) {o : Origins E} (hle : w.origins.Le o)
    (hseed : ∀ seed x, o.drawn.get seed = some x → Start seed) {m : GroupManager E B} (hm : m.Ok o)
    (hme : m.me = w.manager.me) : ({ w with manager := m, origins := o } : World E B).Inv Start where
  manager := hm
  taken s hs := by
    obtain ⟨r, hr, rfl⟩ := h.taken s hs
    exact ⟨r, hme ▸ hr.mono hle, rfl⟩
  drawn := hseed

theorem Inv.keep (h : w.Inv Start) {m : GroupManager E B} (hm : m.Ok w.origins) (hme : m.me = w.manager.me) :
    ({ w with manager := m } : World E B).Inv Start :=
  h.grow (.refl _) h.drawn hm hme

theorem Inv.seeds_draw (h : w.Inv Start) {random : S.Key} (hs : Start random) (gid : Bytes) (epoch : E.Epoch) :
    ∀ seed x, (w.origins.draw random gid epoch).drawn.get seed = some x → Start seed := by
  intro seed x hx
  obtain ⟨rfl, -⟩ | ⟨-, hx⟩ := OrdMap.get_set_some hx
  · exact hs
  · exact h.drawn seed x hx

/-- A call of `admit` that draws a chain for the group and epoch it is made for. -/
theorem Inv.admit_ (h : w.Inv Start) {random : S.Key} (hs : Start random)
    (hfresh : w.origins.drawn.get random = none) {a : Admission E B} (ha : ∀ gk, a.gk = some gk → gk.Kept) :
    ({ w with
        manager := (w.manager.admit_ a random).getD w.manager
        origins := w.origins.draw random a.gid.1 a.epoch } : World E B).Inv Start := by
  have hle := Origins.le_draw hfresh a.gid.1 a.epoch
  cases hm : w.manager.admit_ a random with
  | none => exact h.grow hle (h.seeds_draw hs _ _) (h.manager.mono hle) rfl
  | some m' =>
      refine h.grow hle (h.seeds_draw hs _ _) ?_ (GroupManager.me_admit_ hm)
      exact (h.manager.mono hle).admit_ ha (OrdMap.get_set_self ..) hm

theorem kept_mint {d : GroupManager.KeyDraws B} {made : AdminGk B × Bytes} (h : GroupManager.mint B d = some made) :
    made.1.Kept := by
  unfold GroupManager.mint at h
  split at h
  · rename_i hw
    cases h
    exact hw
  · obtain ⟨gk, hgk, h⟩ := Option.bind_eq_some_iff.mp h
    obtain ⟨pub, hpub, rfl⟩ := Option.map_eq_some_iff.mp hgk
    obtain ⟨-, -, rfl⟩ := Option.map_eq_some_iff.mp h
    simp [AdminGk.Kept, hpub]

theorem Inv.applySkd (h : w.Inv Start) {random : S.Key} (hs : Start random)
    (hfresh : w.origins.drawn.get random = none) (from_ : I.Pub) (skd : SkdFields E) :
    (w.act (.applySkd random from_ skd)).Inv Start := by
  have hme := w.manager.me_applySkd random from_ skd
  rw [act]
  cases hgid : E.unb64 skd.gid with
  | none =>
      refine h.grow (.refl _) h.drawn ?_ hme
      rw [GroupManager.applySkd, hgid]
      exact h.manager
  | some gid =>
      have hle := Origins.le_draw hfresh gid skd.epoch
      have hle' := Origins.le_carry (w.origins.draw random gid skd.epoch) from_ skd
      have hdrawn : ∀ gid', E.unb64 skd.gid = some gid' →
          ((w.origins.draw random gid skd.epoch).carry from_ skd).drawn.get random = some (gid', skd.epoch) := by
        intro gid' hg
        rw [hgid] at hg
        cases hg
        exact hle'.drawn _ _ (OrdMap.get_set_self ..)
      refine h.grow (hle.trans hle') ?_ ?_ hme
      · intro seed x hx
        refine h.seeds_draw hs gid skd.epoch seed x ?_
        unfold Origins.carry at hx
        split at hx <;> exact hx
      · refine (h.manager.mono (hle.trans hle')).applySkd hdrawn ?_
        intro gid' chain hg hc
        simp only [Origins.carry, hg, hc]
        exact List.mem_cons_self ..

theorem Inv.update (h : w.Inv Start) {gid : Bytes} {f : GroupSession S I → GroupSession S I}
    (hview : ∀ g, (f g).view = g.view)
    (hf : ∀ g epoch, g.Belongs w.origins gid epoch → (f g).Belongs w.origins gid epoch) :
    ({ w with manager := w.manager.update gid f } : World E B).Inv Start :=
  h.keep (h.manager.update hview fun r _ => hf r.session r.epoch) (GroupManager.me_updateRec ..)

/-- Snapshots that were taken are those of records that were held. -/
theorem Inv.records (h : w.Inv Start) {snaps : List (GroupSnapshot E B)} (hs : ∀ s ∈ snaps, s ∈ w.taken) :
    ∃ rs : List (GroupRec E B), snaps = rs.map GroupRec.snapshot ∧
      ∀ r ∈ rs, r.Ok w.origins w.manager.me r.session.view.gid := by
  induction snaps with
  | nil => exact ⟨[], rfl, by simp⟩
  | cons s snaps ih =>
      obtain ⟨rs, rfl, hrs⟩ := ih fun s' hs' => hs s' (List.mem_cons_of_mem _ hs')
      obtain ⟨r, hr, rfl⟩ := h.taken s (hs s (List.mem_cons_self ..))
      exact ⟨r :: rs, rfl, List.forall_mem_cons.mpr ⟨hr, hrs⟩⟩

theorem Inv.act (T : Texts E) (h : w.Inv Start) (a : Act E B) (hok : w.Sound Start a) : (w.act a).Inv Start := by
  cases a with
  | createGroupWithNewKey d random secret roster =>
      obtain ⟨hs, hfresh⟩ := hok
      rw [World.act]
      cases hmint : GroupManager.mint B d with
      | none =>
          simp only [GroupManager.createGroupWithNewKey, hmint, Option.bind_none, Option.getD_none, Option.elim_none]
          exact h
      | some made =>
          simp only [GroupManager.createGroupWithNewKey, hmint, Option.bind_some, Option.elim_some]
          refine h.admit_ hs hfresh ?_
          intro gk hgk
          cases hgk
          exact kept_mint hmint
  | rekey gid random secret newRoster =>
      obtain ⟨hs, hfresh⟩ := hok
      rw [World.act, GroupManager.rekey]
      cases hr : w.manager.recs.get gid with
      | none => exact h
      | some r =>
          refine h.admit_ hs hfresh ?_
          intro gk hgk
          cases hgk
  | applySkd random from_ skd => exact h.applySkd hok.1 hok.2 from_ skd
  | dropGroup gid =>
      refine h.keep ?_ rfl
      intro gid' r hr
      exact h.manager gid' r (OrdMap.get_delete_some hr).2
  | setMemberGkKid gid kid =>
      refine h.keep ?_ (GroupManager.me_updateRec ..)
      apply h.manager.updateRec
      intro r _ hr
      exact ⟨⟨hr.framed.view, hr.framed.decodes, hr.framed.gk⟩, hr.chains⟩
  | send gid => exact h.update (fun _ => rfl) fun _ _ hb => hb.sealed
  | receive gid p o opens t t' n header ct =>
      refine h.update ?_ fun _ _ hb => hb.openAt o p opens t t' n header ct
      intro g
      unfold GroupSession.openAt
      split <;> rfl
  | snapshot =>
      refine ⟨h.manager, ?_, h.drawn⟩
      intro s hs
      obtain hs | hs := List.mem_append.mp hs
      · exact h.taken s hs
      · obtain ⟨e, he, rfl⟩ := List.mem_map.mp hs
        have hr := h.manager e.1 e.2 (OrdMap.get_eq_some.mpr he)
        exact ⟨e.2, hr.framed.gid.symm ▸ hr, rfl⟩
  | restart => exact h.keep (GroupManager.ok_start _ _) rfl
  | restore random snaps =>
      obtain ⟨hs, hcur⟩ := hok
      obtain ⟨rs, rfl, hrs⟩ := h.records hs
      have hframed := GroupManager.framed_restore T random h.manager.framed fun r hr => (hrs r hr).framed
      refine h.keep ?_ hframed.2
      intro gid r hr
      exact ⟨hframed.1 gid r hr, (restored_of_current T h.manager hrs hcur).1 gid r hr⟩

variable {random : Nat → S.Key} {snaps : List (GroupSnapshot E B)}

/-- Restoring leaves every session on chains of its own epoch, and no counter further back than it was, exactly
when the last snapshot of each group is current; and what is written down comes back to an empty manager. -/
theorem restore_current (T : Texts E) (hideal : S.chain.Ideal Start) {me : I.Pub}
    (hw : Reach World.act (World.Sound Start) (World.start me) w) (hs : ∀ s ∈ snaps, s ∈ w.taken) :
    (w.manager.restore random snaps).2.isSome = true ∧
    ((OwnChains w.origins (w.manager.restore random snaps).1 ∧
        NoRewind Start w.manager (w.manager.restore random snaps).1) ↔ Current Start w.manager snaps) ∧
    (GroupManager.restore random (.start w.manager.me : GroupManager E B) w.manager.snapshot).1.snapshot =
      w.manager.snapshot := by
  have hinv : w.Inv Start := hw.invariant (inv_start me) fun w a h hok => h.act T a hok
  obtain ⟨rs, rfl, hrs⟩ := hinv.records hs
  refine ⟨?_, ⟨?_, ?_⟩, ?_⟩
  · exact GroupManager.isSome_restoreFrom T hinv.manager.framed fun r hr => (hrs r hr).framed
  · rintro ⟨hown, hback⟩
    exact current_of_restored T hideal hinv.manager hinv.drawn hrs hown hback
  · exact restored_of_current T hinv.manager hrs
  · exact GroupManager.snapshot_restore T hinv.manager.framed

end World

/-! ## A member who was away for a rekey -/

namespace Symbolic

open Group.Symbolic (Key)

theorem texts : Texts env where
  unb64_b64 _ := rfl
  bytesKey_keyBytes (k : Key) := by
    show bytesKey (keyBytes k) = k
    induction k with
    | secret n => simp [keyBytes, bytesKey]
    | message ck ih => rw [keyBytes, bytesKey, ih]
    | next ck ih => rw [keyBytes, bytesKey, ih]

/-- Member 2 joins, and the client stops after its state was written down. -/
def away : World env scalars :=
  (((World.start (2 : UInt8)).act (.applySkd (Key.secret 0) (1 : UInt8) (skd 0))).act .snapshot).act .restart

/-- The rekey arrives before the state is read back. -/
def rekeyed : World env scalars := away.act (.applySkd (Key.secret 1) (1 : UInt8) (skd 1))

theorem reach_away : Reach World.act (World.Sound Group.Symbolic.Start) (World.start (2 : UInt8)) away := by
  refine .step _ (.step _ (.step _ .start ?_) trivial) trivial
  exact ⟨⟨0, rfl⟩, rfl⟩

theorem reach_rekeyed : Reach World.act (World.Sound Group.Symbolic.Start) (World.start (2 : UInt8)) rekeyed :=
  .step _ reach_away ⟨⟨1, rfl⟩, rfl⟩

/-- The chains of the old epoch are then those of the new session. -/
theorem rekeyed_restore : rekeyed.taken.length = 1 ∧
    ¬(OwnChains rekeyed.origins (rekeyed.manager.restore Key.secret rekeyed.taken).1 ∧
      NoRewind Group.Symbolic.Start rekeyed.manager (rekeyed.manager.restore Key.secret rekeyed.taken).1) := by
  have hinv : rekeyed.Inv Group.Symbolic.Start :=
    reach_rekeyed.invariant (World.inv_start _) fun w a h hok => h.act texts a hok
  have hlen : rekeyed.taken.length = 1 := by decide
  refine ⟨hlen, ?_⟩
  rintro ⟨hown, hback⟩
  obtain ⟨rs, hrs, hok⟩ := hinv.records fun s hs => hs
  rw [hrs] at hown hback
  have hcur := current_of_restored texts Group.Symbolic.ideal hinv.manager hinv.drawn hok hown hback
  obtain ⟨s, hs⟩ := List.length_eq_one_iff.mp hlen
  have htaken : rekeyed.taken.map (fun s => ((s.gid : Bytes), (s.epoch : Nat))) = [(group, 0)] := by decide
  have hheld : ((rekeyed.manager.recs.get group).map fun r => (r.epoch : Nat)) = some 1 := by decide
  rw [hs] at htaken
  obtain ⟨hgid, hepoch⟩ := Prod.mk.inj (List.cons.inj htaken).1
  obtain ⟨r, hr, he⟩ := Option.map_eq_some_iff.mp hheld
  have hle := ((hcur [] s [] (hrs.symm.trans hs) (by simp)).2 group r (congrArg some hgid) hr).1
  rw [he, hepoch] at hle
  exact absurd hle (Nat.not_succ_le_zero 0)

/-- Read back before anything arrives, the state is as it was. -/
theorem away_restore : ((away.manager.restore Key.secret away.taken).2.isSome = true ∧
    ((OwnChains away.origins (away.manager.restore Key.secret away.taken).1 ∧
        NoRewind Group.Symbolic.Start away.manager (away.manager.restore Key.secret away.taken).1) ↔
      Current Group.Symbolic.Start away.manager away.taken) ∧
    (GroupManager.restore Key.secret (.start away.manager.me : GroupManager env scalars) away.manager.snapshot).1.snapshot =
      away.manager.snapshot) ∧ away.taken.length = 1 :=
  ⟨World.restore_current texts Group.Symbolic.ideal reach_away fun s hs => hs, by decide⟩

end Symbolic

end EncedoChat.Groups
