import EncedoChat.Lib.Run
import EncedoChat.Group.Admission
import EncedoChat.Groups.Manager

/-!
# Where the chains of a manager come from

A sending chain is drawn for one group at one epoch, a receiving chain arrives in a distribution that names one.
Ghost records of both, kept over restarts, say what it means that a session's chains are its own.
-/

namespace EncedoChat.Groups

open EncedoChat.Group (Suite Identities Env Session SendChain SenderReceiver Gid SkdFields SkdOutcome SkdError Open Time
  ReceiverOpts newSendChain)

variable {S : Suite} {I : Identities} {E : Env S I} {B : Backend}

/-- A chain as a distribution carried it. -/
structure Carried (E : Env S I) where
  member : I.Pub
  gid : Bytes
  epoch : E.Epoch
  key : S.Key
  ctr : Nat

structure Origins (E : Env S I) where
  /-- For which group and epoch a sending chain was drawn, by its first key. -/
  drawn : OrdMap S.Key (Bytes × E.Epoch)
  carried : List (Carried E)

namespace Origins

def draw (o : Origins E) (random : S.Key) (gid : Bytes) (epoch : E.Epoch) : Origins E :=
  { o with drawn := o.drawn.set random (gid, epoch) }

def carry (o : Origins E) (from_ : I.Pub) (skd : SkdFields E) : Origins E :=
  match E.unb64 skd.gid, E.unb64 skd.chain with
  | some gid, some chain =>
    { o with carried := ⟨from_, gid, skd.epoch, E.bytesKey chain, skd.ctr.getD 0⟩ :: o.carried }
  | _, _ => o

/-- `o'` is what became of `o`. -/
structure Le (o o' : Origins E) : Prop where
  drawn : ∀ k x, o.drawn.get k = some x → o'.drawn.get k = some x
  carried : ∀ c ∈ o.carried, c ∈ o'.carried

theorem Le.refl (o : Origins E) : o.Le o := ⟨fun _ _ h => h, fun _ h => h⟩

theorem Le.trans {o o' o'' : Origins E} (h : o.Le o') (h' : o'.Le o'') : o.Le o'' :=
  ⟨fun k x hk => h'.drawn k x (h.drawn k x hk), fun c hc => h'.carried c (h.carried c hc)⟩

theorem le_draw {o : Origins E} {random : S.Key} (h : o.drawn.get random = none) (gid : Bytes) (epoch : E.Epoch) :
    o.Le (o.draw random gid epoch) where
  drawn k x hk := by
    have hne : k ≠ random := by
      rintro rfl
      simp [hk] at h
    exact (OrdMap.get_set_ne _ _ hne).trans hk
  carried _ hc := hc

theorem le_carry (o : Origins E) (from_ : I.Pub) (skd : SkdFields E) : o.Le (o.carry from_ skd) := by
  unfold carry
  split
  · exact ⟨fun _ _ h => h, fun _ h => List.mem_cons_of_mem _ h⟩
  · exact .refl o

end Origins

/-- A position on the chain that starts at `seed`. -/
def OnChain (seed : S.Key) (key : S.Key) (n : Nat) : Prop := key = S.chain.chainAt seed n

/-- The chains were drawn, or carried here, for this group and epoch. -/
structure GroupSession.Belongs (o : Origins E) (gid : Bytes) (epoch : E.Epoch) (g : GroupSession S I) : Prop where
  send_ : ∃ seed, o.drawn.get seed = some (gid, epoch) ∧ OnChain seed g.send_.key g.send_.n
  receivers : ∀ p r, g.receivers.get p = some r → ∃ c ∈ o.carried, c.member = p ∧ c.gid = gid ∧ c.epoch = epoch ∧
    c.ctr ≤ r.n ∧ OnChain c.key r.key (r.n - c.ctr)

namespace GroupSession.Belongs

variable {o o' : Origins E} {gid : Bytes} {epoch : E.Epoch} {g : GroupSession S I}

theorem mono (h : g.Belongs o gid epoch) (hle : o.Le o') : g.Belongs o' gid epoch := by
  constructor
  · obtain ⟨seed, hd, hc⟩ := h.send_
    exact ⟨seed, hle.drawn _ _ hd, hc⟩
  · intro p r hr
    obtain ⟨c, hc, hcs⟩ := h.receivers p r hr
    exact ⟨c, hle.carried c hc, hcs⟩

theorem fresh {v : Session I} {random : S.Key} (h : o.drawn.get random = some (gid, epoch)) :
    Belongs o gid epoch (⟨v, newSendChain random, .empty⟩ : GroupSession S I) :=
  ⟨⟨random, h, rfl⟩, fun p r hr => by cases hr⟩

theorem sealed (h : g.Belongs o gid epoch) : g.sealed.Belongs o gid epoch := by
  refine ⟨?_, h.receivers⟩
  obtain ⟨seed, hd, hc⟩ := h.send_
  refine ⟨seed, hd, ?_⟩
  rw [OnChain] at hc ⊢
  simp only [GroupSession.sealed]
  rw [hc, KeyChain.chainAt_succ]

theorem setSenderKey (h : g.Belongs o gid epoch) {c : Carried E} (hc : c ∈ o.carried) (hg : c.gid = gid)
    (he : c.epoch = epoch) : (g.setSenderKey c.member c.key c.ctr).Belongs o gid epoch := by
  unfold GroupSession.setSenderKey
  split
  · exact h
  · split
    · exact h
    · refine ⟨h.send_, ?_⟩
      intro p r hr
      obtain ⟨rfl, rfl⟩ | ⟨-, hr⟩ := OrdMap.get_set_some hr
      · refine ⟨c, hc, rfl, hg, he, Nat.le_refl _, ?_⟩
        simp [OnChain, SenderReceiver.make]
      · exact h.receivers p r hr

theorem openAt (h : g.Belongs o gid epoch) (opts : ReceiverOpts) (p : I.Pub) (opens : Open S) (t t' : Time) (n : Nat)
    (header ct : Bytes) : (g.openAt opts p opens t t' n header ct).Belongs o gid epoch := by
  unfold GroupSession.openAt
  split
  · exact h
  · rename_i r hr
    refine ⟨h.send_, ?_⟩
    intro q r' hr'
    obtain ⟨rfl, rfl⟩ | ⟨-, hr'⟩ := OrdMap.get_set_some hr'
    · obtain ⟨c, hc, hm, hg, he, hle, hk⟩ := h.receivers q r hr
      obtain ⟨d, hn, hkey⟩ := SenderReceiver.openAt_moves opts opens r t t' n header ct
      refine ⟨c, hc, hm, hg, he, by omega, ?_⟩
      rw [OnChain] at hk ⊢
      rw [hkey, hk, KeyChain.chainAt_add, hn, ← Nat.sub_add_comm hle]
    · exact h.receivers q r' hr'

end GroupSession.Belongs

/-! ## What a manager holds -/

/-- A backend gives the key out again. -/
def AdminGk.Kept : AdminGk B → Prop
  | .hem _ => B.wired = true
  | .software priv => (B.x25519FromPriv priv).isSome = true

/-- The record of a group, its chains apart. -/
structure GroupRec.Framed (me : I.Pub) (gid : Bytes) (r : GroupRec E B) : Prop where
  view : ∃ g : Gid, g.1 = gid ∧ r.session.view = ⟨me, g.1, E.toU32 r.epoch, r.roster.map Member.pub, g.2⟩
  decodes : E.decodes me = true ∧ (r.roster.map Member.pub).all E.decodes = true
  gk : ∀ gk, r.gk = some gk → gk.Kept

structure GroupRec.Ok (o : Origins E) (me : I.Pub) (gid : Bytes) (r : GroupRec E B) : Prop where
  framed : r.Framed me gid
  chains : r.session.Belongs o gid r.epoch

theorem GroupRec.Ok.mono {o o' : Origins E} {me : I.Pub} {gid : Bytes} {r : GroupRec E B} (h : r.Ok o me gid)
    (hle : o.Le o') : r.Ok o' me gid :=
  ⟨h.framed, h.chains.mono hle⟩

namespace GroupManager

def Framed (m : GroupManager E B) : Prop := ∀ gid r, m.recs.get gid = some r → r.Framed m.me gid

def Ok (o : Origins E) (m : GroupManager E B) : Prop := ∀ gid r, m.recs.get gid = some r → r.Ok o m.me gid

variable {o o' : Origins E} {m m' : GroupManager E B} {gid : Bytes}

theorem ok_start (o : Origins E) (me : I.Pub) : (start me : GroupManager E B).Ok o := by
  intro gid r h
  cases h

theorem Ok.framed (h : m.Ok o) : m.Framed := fun gid r hr => (h gid r hr).framed

theorem Ok.mono (h : m.Ok o) (hle : o.Le o') : m.Ok o' := fun gid r hr => (h gid r hr).mono hle

@[simp] theorem me_updateRec (m : GroupManager E B) (gid : Bytes) (f : GroupRec E B → GroupRec E B) :
    (m.updateRec gid f).me = m.me := by
  unfold updateRec
  split <;> rfl

theorem get_updateRec (m : GroupManager E B) (gid gid' : Bytes) (f : GroupRec E B → GroupRec E B) :
    (m.updateRec gid f).recs.get gid' = if gid' = gid then (m.recs.get gid).map f else m.recs.get gid' := by
  unfold updateRec
  cases hr : m.recs.get gid with
  | none =>
      dsimp only
      split
      · rename_i hg
        rw [hg, hr, Option.map_none]
      · rfl
  | some r => rw [OrdMap.get_set, Option.map_some]

theorem Ok.updateRec {f : GroupRec E B → GroupRec E B} (h : m.Ok o)
    (hf : ∀ r, m.recs.get gid = some r → r.Ok o m.me gid → (f r).Ok o m.me gid) : (m.updateRec gid f).Ok o := by
  intro gid' r' hr'
  rw [me_updateRec]
  rw [get_updateRec] at hr'
  split at hr'
  · rename_i hg
    subst hg
    obtain ⟨r, hr, rfl⟩ := Option.map_eq_some_iff.mp hr'
    exact hf r hr (h _ r hr)
  · exact h gid' r' hr'

theorem updateRec_held {f : GroupRec E B → GroupRec E B} {r : GroupRec E B} (h : m.recs.get gid = some r) :
    m.updateRec gid f = ⟨m.me, m.recs.set gid (f r)⟩ := by
  rw [GroupManager.updateRec, h]

theorem updateRec_set {me : I.Pub} {recs : OrdMap Bytes (GroupRec E B)} {f : GroupRec E B → GroupRec E B}
    {r : GroupRec E B} : updateRec ⟨me, recs.set gid r⟩ gid f = ⟨me, recs.set gid (f r)⟩ := by
  rw [updateRec_held (OrdMap.get_set_self ..), OrdMap.set_set]

/-- A session that moves on, on its own chains. -/
theorem Ok.update {f : GroupSession S I → GroupSession S I} (h : m.Ok o) (hview : ∀ g, (f g).view = g.view)
    (hf : ∀ r, m.recs.get gid = some r → r.session.Belongs o gid r.epoch → (f r.session).Belongs o gid r.epoch) :
    (m.update gid f).Ok o := by
  apply h.updateRec
  intro r hr hok
  obtain ⟨g, hg, hv⟩ := hok.framed.view
  exact ⟨⟨⟨g, hg, (hview _).trans hv⟩, hok.framed.decodes, hok.framed.gk⟩, hf r hr hok.chains⟩

theorem Ok.setSenderKey (h : m.Ok o) {c : Carried E} (hc : c ∈ o.carried) {chain : Bytes} {ctr : Option Nat}
    (hkey : c.key = E.bytesKey chain) (hctr : c.ctr = ctr.getD 0) (hgid : c.gid = gid)
    (hepoch : ∀ r, m.recs.get gid = some r → r.epoch = c.epoch) : (m.setSenderKey gid c.member chain ctr).Ok o := by
  apply h.update
  · intro g
    unfold GroupSession.setSenderKey
    split
    · rfl
    · split <;> rfl
  · intro r hr hb
    rw [← hkey, ← hctr]
    exact hb.setSenderKey hc hgid (hepoch r hr).symm

/-! ## A session is created -/

/-- The ways `admit` goes. -/
inductive Admitted (m : GroupManager E B) (a : Admission E B) (random : S.Key) : GroupManager E B → Prop
  | kept {c : GroupRec E B} : m.recs.get a.gid.1 = some c → a.epoch ≤ c.epoch → Admitted m a random m
  | created : (∀ c, m.recs.get a.gid.1 = some c → c.epoch < a.epoch) →
      E.decodes m.me = true → (a.roster.map Member.pub).all E.decodes = true →
      Admitted m a random (m.install a (m.recs.get a.gid.1)
        ⟨⟨m.me, a.gid.1, E.toU32 a.epoch, a.roster.map Member.pub, a.gid.2⟩, newSendChain random, .empty⟩)

theorem admit_cases {a : Admission E B} {random : S.Key} (h : m.admit_ a random = some m') :
    Admitted m a random m' := by
  unfold admit_ at h
  dsimp only at h
  split at h
  · rename_i hany
    obtain ⟨c, hc, hle⟩ := (Option.any_eq_true _ _).mp hany
    cases h
    exact .kept hc (of_decide_eq_true hle)
  · rename_i hany
    obtain ⟨g, hg, rfl⟩ := Option.map_eq_some_iff.mp h
    unfold GroupSession.create at hg
    split at hg
    · rename_i hdec
      cases hg
      refine .created ?_ hdec.1 hdec.2
      intro c hc
      refine lt_of_not_ge fun hle => hany ?_
      exact (Option.any_eq_true _ _).mpr ⟨c, hc, decide_eq_true hle⟩
    · cases hg

theorem get_install {a : Admission E B} {cur : Option (GroupRec E B)} {g : GroupSession S I} {gid' : Bytes}
    {r : GroupRec E B} (h : (m.install a cur g).recs.get gid' = some r) :
    (gid' = a.gid.1 ∧ r = ⟨g, a.gkPub, a.secret, a.roster, a.epoch, a.gk.or (cur.bind GroupRec.gk),
        cur.bind GroupRec.memberGkKid⟩) ∨ (gid' ≠ a.gid.1 ∧ m.recs.get gid' = some r) := by
  obtain ⟨hg, hr⟩ | h := OrdMap.get_set_some h
  · exact Or.inl ⟨hg, hr⟩
  · exact Or.inr h

/-- A key handed to `admit`, or held before, is one the backend gives out. -/
theorem kept_or {given : Option (AdminGk B)} (h : m.Framed) (ha : ∀ gk, given = some gk → gk.Kept) {gk : AdminGk B}
    (hgk : given.or ((m.recs.get gid).bind GroupRec.gk) = some gk) : gk.Kept := by
  obtain hgk | ⟨-, hgk⟩ := Option.or_eq_some_iff.mp hgk
  · exact ha gk hgk
  · obtain ⟨r, hr, hgk⟩ := Option.bind_eq_some_iff.mp hgk
    exact (h gid r hr).gk gk hgk

theorem Ok.admit_ (h : m.Ok o) {a : Admission E B} {random : S.Key} (ha : ∀ gk, a.gk = some gk → gk.Kept)
    (hd : o.drawn.get random = some (a.gid.1, a.epoch)) (hm : m.admit_ a random = some m') : m'.Ok o := by
  cases admit_cases hm with
  | kept _ _ => exact h
  | created _ hme hroster =>
      intro gid r hr
      obtain ⟨rfl, rfl⟩ | ⟨-, hr⟩ := get_install hr
      · exact ⟨⟨⟨a.gid, rfl, rfl⟩, ⟨hme, hroster⟩, fun gk hgk => kept_or h.framed ha hgk⟩, .fresh hd⟩
      · exact h gid r hr

theorem me_admit_ {a : Admission E B} {random : S.Key} (hm : m.admit_ a random = some m') : m'.me = m.me := by
  cases admit_cases hm <;> rfl

/-- After `admit` the group is held at the epoch admitted, or at the later one it was held at. -/
theorem epoch_admit_ {a : Admission E B} {random : S.Key} (hm : m.admit_ a random = some m')
    (hnew : ∀ c, m.recs.get a.gid.1 = some c → c.epoch < a.epoch) {r : GroupRec E B}
    (hr : m'.recs.get a.gid.1 = some r) : r.epoch = a.epoch := by
  cases admit_cases hm with
  | kept hc hle => exact absurd hle (not_le.mpr (hnew _ hc))
  | created _ _ _ =>
      obtain ⟨-, rfl⟩ | ⟨hne, -⟩ := get_install hr
      · rfl
      · exact absurd rfl hne

/-! ## A distribution arrives -/

theorem Ok.advance {random : S.Key} {from_ : I.Pub} {skd : SkdFields E} {cur : Option (GroupRec E B)}
    {outcome : SkdOutcome} (h : m.Ok o) (hd : o.drawn.get random = some (gid, skd.epoch))
    (hcar : ∀ chain, E.unb64 skd.chain = some chain →
      ⟨from_, gid, skd.epoch, E.bytesKey chain, skd.ctr.getD 0⟩ ∈ o.carried)
    (hnew : ∀ c, m.recs.get gid = some c → c.epoch < skd.epoch) :
    (m.advance random from_ skd gid cur outcome).1.Ok o := by
  unfold GroupManager.advance
  cases ha : (Group.GroupManager.start m.me).attest from_ skd gid (cur.map GroupRec.bare) with
  | error e => exact h
  | ok a =>
      have hc := Group.GroupManager.attest_ok ha
      dsimp only
      split
      · exact h
      · rename_i m' hm
        have hm' : m'.Ok o := by
          apply h.admit_ _ _ hm
          · simp
          · rw [hd, hc.group, hc.epoch]
        cases hchain : E.unb64 skd.chain with
        | none => exact hm'
        | some chain =>
            refine hm'.setSenderKey (hcar chain hchain) rfl rfl rfl ?_
            intro r hr
            rw [← hc.group] at hr
            refine (epoch_admit_ hm ?_ hr).trans hc.epoch
            intro c hcur
            rw [hc.group] at hcur
            exact hc.epoch ▸ hnew c hcur

theorem Ok.applySkd {random : S.Key} {from_ : I.Pub} {skd : SkdFields E} (h : m.Ok o)
    (hd : ∀ gid, E.unb64 skd.gid = some gid → o.drawn.get random = some (gid, skd.epoch))
    (hcar : ∀ gid chain, E.unb64 skd.gid = some gid → E.unb64 skd.chain = some chain →
      ⟨from_, gid, skd.epoch, E.bytesKey chain, skd.ctr.getD 0⟩ ∈ o.carried) :
    (m.applySkd random from_ skd).1.Ok o := by
  unfold GroupManager.applySkd
  cases hgid : E.unb64 skd.gid with
  | none => exact h
  | some gid =>
      have hadv : ∀ outcome, (∀ c, m.recs.get gid = some c → c.epoch < skd.epoch) → ∀ cur,
          (m.advance random from_ skd gid cur outcome).1.Ok o :=
        fun outcome hnew cur => h.advance (hd gid hgid) (fun chain => hcar gid chain hgid) hnew
      dsimp only
      cases hcur : m.recs.get gid with
      | none => exact hadv _ (by simp [hcur]) _
      | some cur =>
          dsimp only
          split
          · rename_i hlt
            exact hadv _ (by simpa [hcur] using hlt) _
          · rename_i hlt
            split
            · exact h
            · rename_i hgt
              split
              · exact h
              · cases hchain : E.unb64 skd.chain with
                | none => exact h
                | some chain =>
                    refine h.setSenderKey (hcar gid chain hgid hchain) rfl rfl rfl ?_
                    intro r hr
                    rw [hcur] at hr
                    cases hr
                    exact le_antisymm (not_lt.mp hgt) (not_lt.mp hlt)

@[simp] theorem me_setSenderKey (m : GroupManager E B) (gid : Bytes) (p : I.Pub) (chain : Bytes) (ctr : Option Nat) :
    (m.setSenderKey gid p chain ctr).me = m.me :=
  me_updateRec ..

theorem me_advance (m : GroupManager E B) (random : S.Key) (from_ : I.Pub) (skd : SkdFields E) (gid : Bytes)
    (cur : Option (GroupRec E B)) (outcome : SkdOutcome) :
    (m.advance random from_ skd gid cur outcome).1.me = m.me := by
  unfold GroupManager.advance
  split
  · rfl
  · split
    · rfl
    · rename_i hm
      split
      · exact me_admit_ hm
      · rw [me_setSenderKey]
        exact me_admit_ hm

theorem me_applySkd (m : GroupManager E B) (random : S.Key) (from_ : I.Pub) (skd : SkdFields E) :
    (m.applySkd random from_ skd).1.me = m.me := by
  unfold GroupManager.applySkd
  split
  · rfl
  · split
    · exact me_advance ..
    · split
      · exact me_advance ..
      · split
        · rfl
        · split
          · rfl
          · split
            · rfl
            · exact me_setSenderKey ..

end GroupManager

end EncedoChat.Groups
