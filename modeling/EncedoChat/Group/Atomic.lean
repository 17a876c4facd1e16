import EncedoChat.Group.Admission

/-!
# Distributions that fail

What a call of `applySkd` leaves behind that throws, or that sets its distribution aside.
-/

namespace EncedoChat.Group

variable {S : Suite} {I : Identities} {E : Env S I}

/-- A call that threw, or said that it took nothing. -/
def SkdOutcome.Failed : Except SkdError SkdOutcome → Prop
  | .error _ => True
  | .ok o => o = .refused ∨ o = .stale

/-- The distribution passes all checks of a new group or a newer epoch, and its chain is not base64. -/
structure ChainLost (m : GroupManager E) (from_ : I.Pub) (skd : SkdFields E) (gid : Bytes) (a : Admission E) : Prop where
  group : E.unb64 skd.gid = some gid
  newer : ∀ cur, m.recs.get gid = some cur → cur.epoch < skd.epoch
  attested : m.attest from_ skd gid (m.recs.get gid) = .ok a
  members : E.decodes m.me = true ∧ skd.roster.all E.decodes = true
  chain : E.unb64 skd.chain = none

namespace GroupManager

/-- The same groups are held, and all that is held of each is the same. -/
def SameGroups (m m' : GroupManager E) : Prop := ∀ gid, m'.recs.get gid = m.recs.get gid

theorem SameGroups.refl (m : GroupManager E) : m.SameGroups m := fun _ => rfl

variable {m : GroupManager E} {d : Draws S} {from_ : I.Pub} {skd : SkdFields E} {gid : Bytes} {a : Admission E}

theorem create_isSome {me : I.Pub} {gid : Gid} {epoch : E.Epoch} {members : List I.Pub} {random : S.Key} :
    (GroupSession.create E me gid epoch members random).isSome ↔
      E.decodes me = true ∧ members.all E.decodes = true := by
  unfold GroupSession.create
  split
  · rename_i h
    simp only [Option.isSome_some, true_iff]
    exact h
  · rename_i h
    simp only [Option.isSome_none, Bool.false_eq_true, false_iff]
    exact h

/-- A new group and a newer epoch are taken on in one way. -/
theorem applySkd_newer (d : Draws S) (from_ : I.Pub) (hgid : E.unb64 skd.gid = some gid)
    (hnew : ∀ cur, m.recs.get gid = some cur → cur.epoch < skd.epoch) :
    ∃ outcome, (outcome = .joined ∨ outcome = .rekeyed) ∧
      m.applySkd d from_ skd = m.advance d from_ skd gid (m.recs.get gid) outcome := by
  cases hcur : m.recs.get gid with
  | none =>
      refine ⟨.joined, Or.inl rfl, ?_⟩
      simp only [applySkd, hgid, hcur]
  | some cur =>
      refine ⟨.rekeyed, Or.inr rfl, ?_⟩
      simp only [applySkd, hgid, hcur, if_pos (hnew cur hcur)]

/-! ## The chain is decoded last -/

/-- The record is replaced before the chain turns out to be unreadable. -/
theorem applySkd_lost (d : Draws S) (hl : ChainLost m from_ skd gid a) :
    ∃ session, m.applySkd d from_ skd = (m.install a (m.recs.get gid) session, .error .malformed) := by
  obtain ⟨outcome, -, happly⟩ := applySkd_newer d from_ hl.group hl.newer
  have hc := attest_ok hl.attested
  have hsome : (GroupSession.create E m.me a.gid a.epoch a.roster d.random).isSome :=
    create_isSome.mpr (hc.roster ▸ hl.members)
  obtain ⟨session, hs⟩ := Option.isSome_iff_exists.mp hsome
  refine ⟨session, ?_⟩
  have hadmit : m.admit_ a d.random = some (m.install a (m.recs.get gid) session) := by
    rw [admit_new (by rw [hc.group, hc.epoch]; exact hl.newer), hc.group, hs, Option.map_some]
  simp only [happly, advance, hl.attested, hadmit, hl.chain]

/-- The record put in place of the old one is of a newer epoch. -/
theorem install_moves {session : GroupSession S I} (hl : ChainLost m from_ skd gid a) :
    ¬ m.SameGroups (m.install a (m.recs.get gid) session) := by
  intro hsame
  have hc := attest_ok hl.attested
  have hget := hsame gid
  rw [install, ← hc.group, OrdMap.get_set_self, hc.group] at hget
  have hlt := hl.newer _ hget.symm
  rw [← hc.epoch] at hlt
  exact lt_irrefl _ hlt

/-! ## All other failures come first -/

theorem advance_failed {outcome : SkdOutcome} (ho : outcome = .joined ∨ outcome = .rekeyed)
    (hgid : E.unb64 skd.gid = some gid) (hnew : ∀ cur, m.recs.get gid = some cur → cur.epoch < skd.epoch)
    (hkept : ∀ a, ¬ ChainLost m from_ skd gid a)
    (hf : SkdOutcome.Failed (m.advance d from_ skd gid (m.recs.get gid) outcome).2) :
    (m.advance d from_ skd gid (m.recs.get gid) outcome).1 = m := by
  unfold advance at hf ⊢
  cases ha : m.attest from_ skd gid (m.recs.get gid) with
  | error e => rfl
  | ok a =>
      have hc := attest_ok ha
      rw [ha] at hf
      dsimp only at hf ⊢
      rw [admit_new (by rw [hc.group, hc.epoch]; exact hnew), hc.group] at hf ⊢
      cases hs : GroupSession.create E m.me a.gid a.epoch a.roster d.random with
      | none => rfl
      | some session =>
          have hmembers := create_isSome.mp (hs ▸ rfl :
            (GroupSession.create E m.me a.gid a.epoch a.roster d.random).isSome)
          cases hchain : E.unb64 skd.chain with
          | none => exact absurd ⟨hgid, hnew, ha, hc.roster ▸ hmembers, hchain⟩ (hkept a)
          | some chain =>
              rw [hs, hchain] at hf
              rcases ho with rfl | rfl <;> rcases hf with hf | hf <;> cases hf

theorem applySkd_failed (hkept : ∀ gid a, ¬ ChainLost m from_ skd gid a)
    (hf : SkdOutcome.Failed (m.applySkd d from_ skd).2) : (m.applySkd d from_ skd).1 = m := by
  cases hgid : E.unb64 skd.gid with
  | none => simp only [applySkd, hgid]
  | some gid =>
      by_cases hnew : ∀ cur, m.recs.get gid = some cur → cur.epoch < skd.epoch
      · obtain ⟨outcome, ho, happly⟩ := applySkd_newer d from_ hgid hnew
        rw [happly] at hf ⊢
        exact advance_failed ho hgid hnew (hkept gid) hf
      · obtain ⟨cur, hcur, hge⟩ : ∃ cur, m.recs.get gid = some cur ∧ ¬ cur.epoch < skd.epoch := by
          simpa using hnew
        simp only [applySkd, hgid, hcur, if_neg hge] at hf ⊢
        split at hf
        · rename_i hstale
          rw [if_pos hstale]
        · rename_i hsame
          rw [if_neg hsame]
          split at hf
          · rename_i hout
            rw [if_pos hout]
          · rename_i hin
            rw [if_neg hin]
            cases hchain : E.unb64 skd.chain with
            | none => rfl
            | some chain =>
                rw [hchain] at hf
                rcases hf with hf | hf <;> cases hf

/-- A failed distribution leaves every group as it was, unless an attested advance comes with an unreadable chain. -/
theorem applySkd_atomic (m : GroupManager E) (d : Draws S) (from_ : I.Pub) (skd : SkdFields E) :
    (SkdOutcome.Failed (m.applySkd d from_ skd).2 → m.SameGroups (m.applySkd d from_ skd).1) ↔
      ∀ gid a, ¬ ChainLost m from_ skd gid a := by
  constructor
  · intro hatomic gid a hl
    obtain ⟨session, happly⟩ := applySkd_lost d hl
    rw [happly] at hatomic
    exact install_moves hl (hatomic trivial)
  · intro hkept hf
    rw [applySkd_failed hkept hf]
    exact .refl m

end GroupManager

/-! ## An advance that is half applied -/

namespace Symbolic

/-- What is not base64 is `none`. -/
def strictEnv : Env suite identities where
  Text := Option Bytes
  b64 := some
  unb64 := id
  decodes := env.decodes
  pubBytes := env.pubBytes
  Epoch := Nat
  next := Nat.succ
  zero := 0
  toU32 := env.toU32
  keyBytes := env.keyBytes
  bytesKey := env.bytesKey
  groupIdFromGK := env.groupIdFromGK
  RosterKey := env.RosterKey
  rosterMacKeyFor := env.rosterMacKeyFor
  AdminGk := env.AdminGk
  rosterKeyFor := env.rosterKeyFor
  hmac := env.hmac

/-- The first distribution of the admin's group, its chain no base64. -/
def chainless : SkdFields strictEnv :=
  let roster : List UInt8 := [1, 2]
  let mac := rosterMac env (2 :: (gk ++ macCtx env group (0 : Nat))) roster
  ⟨some group, some gk, (0 : Nat), some [9], none, none, roster, some (some mac)⟩

/-- The manager throws, and holds the group. -/
theorem chainless_joins :
    let m := (GroupManager.start (2 : UInt8) : GroupManager strictEnv).applySkd ⟨.secret 0, 0, 0⟩ (1 : UInt8) chainless
    ¬ (SkdOutcome.Failed m.2 → (GroupManager.start (2 : UInt8)).SameGroups m.1) := by
  intro m hatomic
  have hfail : m.2 = .error .malformed := by decide
  have hget := hatomic (by rw [hfail]; trivial) group
  have hheld : (m.1.recs.get group).isSome = true := by decide
  rw [hget] at hheld
  cases hheld

end Symbolic

end EncedoChat.Group
