import EncedoChat.Invites.Store

/-!
# Updates that are not lost

What a run keeps when no call stores a list made from a record that another call has replaced.
-/

namespace EncedoChat.Invites

open Register

variable {keys : Keys}

theorem faithful_invites (keys : Keys) : Faithful (invitesKind keys) := by
  intro v t h
  simp only [invitesKind, writeSealedKV] at h
  split at h
  case isTrue hbase =>
    obtain rfl := Option.some.inj h
    simp only [invitesKind, readSealedKV, if_pos hbase, Option.getD_some]
  · cases h

theorem faithful_ignored (keys : Keys) : Faithful (ignoredKind keys) := by
  intro v t h
  simp only [ignoredKind, writeSealedKV] at h
  split at h
  case isTrue hbase =>
    obtain rfl := Option.some.inj h
    simp only [ignoredKind, readSealedKV, if_pos hbase, Option.getD_some]
  · cases h

/-! ## Invites -/

theorem change_revoke {id : String} {list : List PubInvite} :
    changeInvites (.revoke id) list = none ↔ ∀ inv ∈ list, inv.id ≠ id := by
  rw [changeInvites]
  split
  case isTrue hlen =>
    have hall := List.length_filter_eq_length_iff.mp hlen
    simpa using hall
  case isFalse hlen =>
    refine ⟨nofun, fun hall => absurd ?_ hlen⟩
    exact List.length_filter_eq_length_iff.mpr fun inv hinv => by simpa using hall inv hinv

theorem made_create (inv : PubInvite) (list : List PubInvite) : made (invitesKind keys) (.create inv) list = inv :: list :=
  rfl

theorem mem_made_revoke {id : String} {list : List PubInvite} {inv : PubInvite} :
    inv ∈ made (invitesKind keys) (.revoke id) list ↔ inv ∈ list ∧ inv.id ≠ id := by
  unfold made
  cases hchange : (invitesKind keys).change (.revoke id) list with
  | none =>
      have hall := change_revoke.mp hchange
      exact ⟨fun h => ⟨h, hall inv h⟩, And.left⟩
  | some keep =>
      simp only [invitesKind, changeInvites] at hchange
      split at hchange
      · cases hchange
      · obtain rfl := Option.some.inj hchange
        simp

abbrev InvitesRegister := Register (Option (Stored (List PubInvite))) InviteOp (List PubInvite)

/-- A call to withdraw that will: it has seen an invite of the id, or stores what is left. -/
def Withdraws (r : InvitesRegister) (id : String) : Prop :=
  (∃ v, (InviteOp.revoke id, Phase.reading v) ∈ r.calls ∧ ∃ inv ∈ v, inv.id = id) ∨
    ∃ v, (InviteOp.revoke id, Phase.writing v) ∈ r.calls

structure InvitesInv (keys : Keys) (before : List PubInvite) (r : InvitesRegister) : Prop where
  called : r.Called
  created : ∀ inv, .done (.create inv) ∈ r.log ∨ inv ∈ before → .called (.revoke inv.id) ∉ r.log →
    inv ∈ (invitesKind keys).read r.text
  revoked : ∀ id newer older, r.log = newer ++ .called (.revoke id) :: older →
    (∀ inv, .done (.create inv) ∈ newer → inv.id ≠ id) →
    (∀ inv ∈ (invitesKind keys).read r.text, inv.id ≠ id) ∨ Withdraws r id

variable {r r' : InvitesRegister} {before : List PubInvite}

theorem InvitesInv.start (keys : Keys) (t : Option (Stored (List PubInvite))) :
    InvitesInv keys ((invitesKind keys).read t) (opened t) where
  called op p h := by cases h
  created inv h _ := h.resolve_left (by nofun)
  revoked id newer older h := by cases newer <;> cases h

theorem mem_erased {α : Type} {l : List α} {x y : α} {k : Nat} (hx : x ∈ l) (hy : l[k]? = some y) (hne : x ≠ y) :
    x ∈ l.eraseIdx k := by
  obtain ⟨i, hi⟩ := List.mem_iff_getElem?.mp hx
  refine List.mem_eraseIdx_iff_getElem?.mpr ⟨i, ?_, hi⟩
  rintro rfl
  exact hne (Option.some.inj (hi.symm.trans hy))

theorem Withdraws.append {id : String} {c : InviteOp × Phase (List PubInvite)} (h : Withdraws r id)
    (hcalls : r'.calls = r.calls ++ [c]) : Withdraws r' id := by
  rw [Withdraws, hcalls]
  exact h.imp (fun ⟨v, hv, hin⟩ => ⟨v, List.mem_append_left _ hv, hin⟩) fun ⟨v, hv⟩ => ⟨v, List.mem_append_left _ hv⟩

theorem InvitesInv.steps (h : InvitesInv keys before r) (hs : Steps (invitesKind keys) r r') :
    InvitesInv keys before r' where
  called := h.called.steps hs
  created := by
    intro inv hinv hkept
    cases hs with
    | call op htext _ hlog =>
        rw [hlog] at hinv hkept
        rw [htext]
        refine h.created inv (hinv.imp_left fun hin => ?_) fun hin => hkept (List.mem_cons_of_mem _ hin)
        exact (List.mem_cons.mp hin).resolve_left nofun
    | pass k op v hcall hchange htext _ hlog =>
        rw [hlog] at hinv hkept
        rw [htext]
        refine h.created inv (hinv.imp_left fun hin => ?_) fun hin => hkept (List.mem_cons_of_mem _ hin)
        refine (List.mem_cons.mp hin).resolve_left fun heq => ?_
        obtain rfl := (Mark.done.inj heq).symm
        cases hchange
    | prepare k op v v' _ _ htext _ hlog =>
        rw [hlog] at hinv hkept
        rw [htext]
        exact h.created inv hinv hkept
    | write k op v hcall hread _ hlog =>
        rw [hlog] at hinv hkept
        rw [hread]
        have hold : .done (.create inv) ∈ r.log ∨ inv ∈ before → inv ∈ (invitesKind keys).read r.text :=
          fun hin => h.created inv hin fun hin => hkept (List.mem_cons_of_mem _ hin)
        cases op with
        | create inv' =>
            rw [made_create, List.mem_cons]
            rcases hinv with hin | hin
            · rcases List.mem_cons.mp hin with heq | hin
              · obtain rfl : inv = inv' := by simpa using heq
                exact .inl rfl
              · exact .inr (hold (.inl hin))
            · exact .inr (hold (.inr hin))
        | revoke id =>
            refine mem_made_revoke.mpr ⟨hold (hinv.imp_left fun hin => (List.mem_cons.mp hin).resolve_left (by nofun)), ?_⟩
            rintro rfl
            exact hkept (List.mem_cons_of_mem _ (h.called _ _ (List.mem_of_getElem? hcall)))
    | idle heq =>
        subst heq
        exact h.created inv hinv hkept
  revoked := by
    intro id newer older hsplit hnew
    cases hs with
    | call op htext hcalls hlog =>
        rw [htext]
        rw [hlog] at hsplit
        rcases newer with _ | ⟨m, newer⟩
        · obtain ⟨hop, -⟩ := List.cons.inj hsplit
          obtain rfl := Mark.called.inj hop
          by_cases hin : ∃ inv ∈ (invitesKind keys).read r.text, inv.id = id
          · refine .inr (.inl ⟨_, ?_, hin⟩)
            rw [hcalls]
            exact List.mem_append_right _ List.mem_cons_self
          · exact .inl fun inv hinv heq => hin ⟨inv, hinv, heq⟩
        · obtain ⟨-, hsplit⟩ := List.cons.inj hsplit
          have hold := h.revoked id newer older hsplit fun inv hin => hnew inv (List.mem_cons_of_mem _ hin)
          exact hold.imp_right fun hw => hw.append hcalls
    | pass k op v hcall hchange htext hcalls hlog =>
        rw [htext]
        rw [hlog] at hsplit
        rcases newer with _ | ⟨m, newer⟩
        · cases hsplit
        · obtain ⟨-, hsplit⟩ := List.cons.inj hsplit
          have hold := h.revoked id newer older hsplit fun inv hin => hnew inv (List.mem_cons_of_mem _ hin)
          refine hold.imp_right ?_
          rintro (⟨w, hw, hin⟩ | ⟨w, hw⟩)
          · refine .inl ⟨w, ?_, hin⟩
            rw [hcalls]
            refine mem_erased hw hcall fun heq => ?_
            obtain ⟨rfl, hphase⟩ := Prod.mk.inj heq
            obtain rfl := Phase.reading.inj hphase
            obtain ⟨inv, hinv, hid⟩ := hin
            exact change_revoke.mp hchange inv hinv hid
          · refine .inr ⟨w, ?_⟩
            rw [hcalls]
            exact mem_erased hw hcall nofun
    | prepare k op v v' hcall _ htext hcalls hlog =>
        rw [htext]
        rw [hlog] at hsplit
        refine (h.revoked id newer older hsplit hnew).imp_right ?_
        rintro (⟨w, hw, hin⟩ | ⟨w, hw⟩)
        · by_cases heq : (InviteOp.revoke id, Phase.reading w) = (op, Phase.reading v)
          · obtain ⟨rfl, -⟩ := Prod.mk.inj heq
            refine .inr ⟨v', ?_⟩
            rw [hcalls]
            exact List.mem_append_right _ List.mem_cons_self
          · refine .inl ⟨w, ?_, hin⟩
            rw [hcalls]
            exact List.mem_append_left _ (mem_erased hw hcall heq)
        · refine .inr ⟨w, ?_⟩
          rw [hcalls]
          exact List.mem_append_left _ (mem_erased hw hcall nofun)
    | write k op v hcall hread hcalls hlog =>
        rw [hread]
        rw [hlog] at hsplit
        rcases newer with _ | ⟨m, newer⟩
        · cases hsplit
        · obtain ⟨rfl, hrest⟩ := List.cons.inj hsplit
          rcases h.revoked id newer older hrest fun inv hin => hnew inv (List.mem_cons_of_mem _ hin) with hgone | hw
          · left
            cases op with
            | create inv' =>
                rw [made_create, List.forall_mem_cons]
                exact ⟨hnew inv' List.mem_cons_self, hgone⟩
            | revoke id' => exact fun inv hinv => hgone inv (mem_made_revoke.mp hinv).1
          · by_cases hop : op = .revoke id
            · subst hop
              exact .inl fun inv hinv => (mem_made_revoke.mp hinv).2
            · right
              rw [Withdraws, hcalls]
              exact hw.imp (fun ⟨w, hw, hin⟩ => ⟨w, mem_erased hw hcall nofun, hin⟩)
                fun ⟨w, hw⟩ => ⟨w, mem_erased hw hcall fun heq => hop (Prod.mk.inj heq).1.symm⟩
    | idle heq =>
        subst heq
        exact h.revoked id newer older hsplit hnew

/-! ## Ignored keys -/

abbrev IgnoredRegister := Register (Option (Stored (List Ignored))) Ignored (List Ignored)

/-- So many entries of a list stood before a fingerprint; those put before it since are of others, or they are so many
that it is not among the newest. -/
def Stays (list : List Ignored) (fp : String) (ahead : Nat) (since : List String) : Prop :=
  (∃ new old r behind, list = new ++ old ++ r :: behind ∧ r.fp = fp ∧ old.length = ahead ∧
      (new.map Ignored.fp).Nodup ∧ new.map Ignored.fp ⊆ since ∧ fp ∉ new.map Ignored.fp) ∨
    ∃ others : List String, others.Nodup ∧ others ⊆ since ∧ fp ∉ others ∧ IGNORED_MAX ≤ ahead + others.length

theorem Stays.mono {list : List Ignored} {fp : String} {ahead : Nat} {since since' : List String} (hsub : since ⊆ since')
    (h : Stays list fp ahead since) : Stays list fp ahead since' := by
  rcases h with ⟨new, old, r, behind, hlist, hfp, hlen, hnd, hin, hnot⟩ | ⟨others, hnd, hin, hnot, hmany⟩
  · exact .inl ⟨new, old, r, behind, hlist, hfp, hlen, hnd, List.Subset.trans hin hsub, hnot⟩
  · exact .inr ⟨others, hnd, List.Subset.trans hin hsub, hnot, hmany⟩

/-- One more is put before it, and the last one falls off the list. -/
theorem Stays.push {list : List Ignored} {fp : String} {ahead : Nat} {since : List String} {g : Ignored}
    (h : Stays list fp ahead since) (hg : g.fp ∉ list.map Ignored.fp) :
    Stays ((g :: list).take IGNORED_MAX) fp ahead (g.fp :: since) := by
  rcases h with ⟨new, old, r, behind, rfl, rfl, rfl, hnd, hin, hnot⟩ | ⟨others, hnd, hin, hnot, hmany⟩
  · have hnew : g.fp ∉ new.map Ignored.fp := by
      intro hg'
      apply hg
      rw [List.map_append, List.map_append]
      exact List.mem_append_left _ (List.mem_append_left _ hg')
    have hne : r.fp ≠ g.fp := by
      intro heq
      apply hg
      rw [List.map_append, ← heq]
      exact List.mem_append_right _ List.mem_cons_self
    have hnd' : ((g :: new).map Ignored.fp).Nodup := List.nodup_cons.mpr ⟨hnew, hnd⟩
    have hin' : (g :: new).map Ignored.fp ⊆ g.fp :: since := List.cons_subset_cons _ hin
    have hnot' : r.fp ∉ (g :: new).map Ignored.fp := by
      rw [List.map_cons, List.mem_cons, not_or]
      exact ⟨hne, hnot⟩
    by_cases hroom : (g :: new ++ old).length < IGNORED_MAX
    · refine .inl ⟨g :: new, old, r, behind.take (IGNORED_MAX - (g :: new ++ old).length - 1), ?_, rfl, rfl, hnd', hin', hnot'⟩
      have hsplit : g :: (new ++ old ++ r :: behind) = (g :: new ++ old) ++ r :: behind := by simp
      obtain ⟨room, hroom'⟩ := Nat.exists_eq_add_of_lt hroom
      rw [hsplit, List.take_append, List.take_of_length_le (Nat.le_of_lt hroom), hroom']
      congr 1
      rw [Nat.add_assoc, Nat.add_sub_cancel_left, List.take_succ_cons, Nat.add_sub_cancel]
    · refine .inr ⟨(g :: new).map Ignored.fp, hnd', hin', hnot', ?_⟩
      rw [List.length_map]
      rw [List.length_append] at hroom
      omega
  · exact .inr ⟨others, hnd, List.subset_cons_of_subset _ hin, hnot, hmany⟩

theorem Stays.first {g : Ignored} (list : List Ignored) (since : List String) :
    Stays ((g :: list).take IGNORED_MAX) g.fp 0 since :=
  .inl ⟨[], [], g, list.take 511, rfl, rfl, rfl, List.nodup_nil, List.nil_subset _, List.not_mem_nil⟩

structure IgnoredInv (keys : Keys) (before : List Ignored) (r : IgnoredRegister) : Prop where
  known : ∀ fp ∈ ((ignoredKind keys).read r.text).map Ignored.fp,
    fp ∈ InviteStore.fingerprints r.log ∨ fp ∈ before.map Ignored.fp
  reading : ∀ op v, (op, Phase.reading v) ∈ r.calls → ∀ fp ∈ v.map Ignored.fp,
    fp ∈ InviteStore.fingerprints r.log ∨ fp ∈ before.map Ignored.fp
  fresh : ∀ fp newer older, InviteStore.fingerprints r.log = newer ++ fp :: older → fp ∉ older →
    fp ∉ before.map Ignored.fp → Stays ((ignoredKind keys).read r.text) fp 0 newer
  old : ∀ ahead r' behind, before = ahead ++ r' :: behind →
    Stays ((ignoredKind keys).read r.text) r'.fp ahead.length (InviteStore.fingerprints r.log)

variable {r r' : IgnoredRegister} {before : List Ignored}

theorem IgnoredInv.start (keys : Keys) (t : Option (Stored (List Ignored))) :
    IgnoredInv keys ((ignoredKind keys).read t) (opened t) where
  known fp hfp := .inr hfp
  reading op v h := by cases h
  fresh fp newer older h := by cases newer <;> cases h
  old ahead r' behind hlist :=
    .inl ⟨[], ahead, r', behind, hlist, rfl, rfl, List.nodup_nil, List.nil_subset _, List.not_mem_nil⟩

/-- A key is ignored whose fingerprint is known: the list is as it was. -/
theorem IgnoredInv.again {g : Ignored} (h : IgnoredInv keys before r)
    (hread : (ignoredKind keys).read r'.text = (ignoredKind keys).read r.text) (hlog : r'.log = .done g :: r.log)
    (hcalls : r'.calls ⊆ r.calls) (hg : g.fp ∈ InviteStore.fingerprints r.log ∨ g.fp ∈ before.map Ignored.fp) :
    IgnoredInv keys before r' := by
  have hprints : InviteStore.fingerprints r'.log = g.fp :: InviteStore.fingerprints r.log := by rw [hlog]; rfl
  refine ⟨fun fp hfp => ?_, fun op v hin fp hfp => ?_, fun fp newer older hsplit hnot hbefore => ?_,
    fun ahead r₀ behind hlist => ?_⟩
  · rw [hprints]
    exact (h.known fp (hread ▸ hfp)).imp_left (List.mem_cons_of_mem _)
  · rw [hprints]
    exact (h.reading op v (hcalls hin) fp hfp).imp_left (List.mem_cons_of_mem _)
  · rw [hprints] at hsplit
    rw [hread]
    rcases newer with _ | ⟨x, newer⟩
    · obtain ⟨rfl, rfl⟩ := List.cons.inj hsplit
      exact absurd (hg.resolve_right hbefore) hnot
    · obtain ⟨rfl, hrest⟩ := List.cons.inj hsplit
      exact (h.fresh fp newer older hrest hnot hbefore).mono (List.subset_cons_self _ _)
  · rw [hprints, hread]
    exact (h.old ahead r₀ behind hlist).mono (List.subset_cons_self _ _)

theorem IgnoredInv.pushed {g : Ignored} (h : IgnoredInv keys before r)
    (hg : g.fp ∉ ((ignoredKind keys).read r.text).map Ignored.fp)
    (hread : (ignoredKind keys).read r'.text = (g :: (ignoredKind keys).read r.text).take IGNORED_MAX)
    (hlog : r'.log = .done g :: r.log) (hcalls : r'.calls ⊆ r.calls) : IgnoredInv keys before r' := by
  have hprints : InviteStore.fingerprints r'.log = g.fp :: InviteStore.fingerprints r.log := by rw [hlog]; rfl
  refine ⟨fun fp hfp => ?_, fun op v hin fp hfp => ?_, fun fp newer older hsplit hnot hbefore => ?_,
    fun ahead r₀ behind hlist => ?_⟩
  · rw [hprints]
    rw [hread, List.map_take] at hfp
    rcases List.mem_cons.mp (List.mem_of_mem_take hfp) with rfl | hin
    · exact .inl List.mem_cons_self
    · exact (h.known fp hin).imp_left (List.mem_cons_of_mem _)
  · rw [hprints]
    exact (h.reading op v (hcalls hin) fp hfp).imp_left (List.mem_cons_of_mem _)
  · rw [hprints] at hsplit
    rw [hread]
    rcases newer with _ | ⟨x, newer⟩
    · obtain ⟨rfl, -⟩ := List.cons.inj hsplit
      exact .first _ _
    · obtain ⟨rfl, hrest⟩ := List.cons.inj hsplit
      exact (h.fresh fp newer older hrest hnot hbefore).push hg
  · rw [hprints, hread]
    exact (h.old ahead r₀ behind hlist).push hg

theorem ignore_none {g : Ignored} {list : List Ignored} : ignore g list = none ↔ g.fp ∈ list.map Ignored.fp := by
  have hany : list.any (·.fp = g.fp) = true ↔ g.fp ∈ list.map Ignored.fp := by
    simp only [List.any_eq_true, decide_eq_true_eq, List.mem_map]
  rw [← hany, ignore]
  split
  case isTrue h => exact ⟨fun _ => h, fun _ => rfl⟩
  case isFalse h => exact ⟨nofun, fun h' => absurd h' h⟩

theorem IgnoredInv.steps (h : IgnoredInv keys before r) (hs : Steps (ignoredKind keys) r r') :
    IgnoredInv keys before r' := by
  cases hs with
  | call op htext hcalls hlog =>
      have hprints : InviteStore.fingerprints r'.log = InviteStore.fingerprints r.log := by rw [hlog]; rfl
      refine ⟨?_, ?_, ?_, ?_⟩
      · rw [hprints, htext]
        exact h.known
      · intro op' v hin
        rw [hprints]
        rw [hcalls, List.mem_append, List.mem_singleton] at hin
        rcases hin with hin | heq
        · exact h.reading op' v hin
        · obtain ⟨-, hphase⟩ := Prod.mk.inj heq
          obtain rfl := Phase.reading.inj hphase
          exact h.known
      · rw [hprints, htext]
        exact h.fresh
      · rw [hprints, htext]
        exact h.old
  | pass k op v hcall hchange htext hcalls hlog =>
      refine h.again (by rw [htext]) hlog (by rw [hcalls]; exact List.eraseIdx_subset ..) ?_
      exact h.reading op v (List.mem_of_getElem? hcall) op.fp (ignore_none.mp hchange)
  | prepare k op v v' hcall _ htext hcalls hlog =>
      refine ⟨?_, ?_, ?_, ?_⟩
      · rw [hlog, htext]
        exact h.known
      · intro op' w hin
        rw [hlog]
        rw [hcalls, List.mem_append, List.mem_singleton] at hin
        rcases hin with hin | heq
        · exact h.reading op' w (List.mem_of_mem_eraseIdx hin)
        · cases (Prod.mk.inj heq).2
      · rw [hlog, htext]
        exact h.fresh
      · rw [hlog, htext]
        exact h.old
  | write k op v hcall hread hcalls hlog =>
      have hsub : r'.calls ⊆ r.calls := by
        rw [hcalls]
        exact List.eraseIdx_subset ..
      cases hchange : ignore op ((ignoredKind keys).read r.text) with
      | none =>
          refine h.again (hread.trans ?_) hlog hsub (h.known op.fp (ignore_none.mp hchange))
          rw [made, show (ignoredKind keys).change op _ = none from hchange, Option.getD_none]
      | some v' =>
          have hg : op.fp ∉ ((ignoredKind keys).read r.text).map Ignored.fp := by
            intro hin
            rw [ignore_none.mpr hin] at hchange
            cases hchange
          refine h.pushed hg (hread.trans ?_) hlog hsub
          rw [made, show (ignoredKind keys).change op _ = some v' from hchange, Option.getD_some]
          unfold ignore at hchange
          split at hchange
          · cases hchange
          · exact (Option.some.inj hchange).symm
  | idle heq =>
      subst heq
      exact h

/-! ## Runs -/

namespace InviteStore

variable {s₀ s : InviteStore}

structure Inv (keys : Keys) (s₀ s : InviteStore) : Prop where
  invites : InvitesInv keys (s₀.list keys) s.invites
  ignored : IgnoredInv keys (s₀.ignoreList keys) s.ignored

theorem Inv.onInvites (h : Inv keys s₀ s) (a : Register.Act InviteOp) (ha : s.invites.Current (invitesKind keys) a) :
    Inv keys s₀ (s.onInvites keys a) :=
  ⟨h.invites.steps (act_steps (faithful_invites keys) a ha), h.ignored⟩

theorem Inv.onIgnored (h : Inv keys s₀ s) (a : Register.Act Ignored) (ha : s.ignored.Current (ignoredKind keys) a) :
    Inv keys s₀ (s.onIgnored keys a) :=
  ⟨h.invites, h.ignored.steps (act_steps (faithful_ignored keys) a ha)⟩

theorem Inv.act (h : Inv keys s₀ s) (e : Event) (he : s.Current keys e) : Inv keys s₀ (s.act keys e) := by
  cases e with
  | create label ttlMs now id secret =>
      rw [InviteStore.act]
      split
      · exact h.onInvites _ trivial
      · exact h
  | revoke id => exact h.onInvites _ trivial
  | ignore fp now => exact h.onIgnored _ trivial
  | resumeInvites k ok => exact h.onInvites _ he
  | resumeIgnored k ok => exact h.onIgnored _ he

theorem listed_of_stays {fp : String} {since : List String} {ahead : Nat} (h : Stays (s.ignoreList keys) fp ahead since) :
    s.Listed keys fp since ahead := by
  refine h.imp_left ?_
  rintro ⟨new, old, r, behind, hlist, rfl, -⟩
  rw [hlist, List.map_append]
  exact List.mem_append_right _ List.mem_cons_self

theorem Inv.kept (h : Inv keys s₀ s) (hidle : s.Idle) : s.Kept keys s₀ where
  created := h.invites.created
  revoked id newer older hsplit hnew := by
    rcases h.invites.revoked id newer older hsplit hnew with hgone | ⟨v, hin, -⟩ | ⟨v, hin⟩
    · exact hgone
    · rw [hidle.1] at hin
      cases hin
    · rw [hidle.1] at hin
      cases hin
  ignored fp newer older hsplit hnot hbefore := listed_of_stays (h.ignored.fresh fp newer older hsplit hnot hbefore)
  ignoredBefore ahead r behind hlist := listed_of_stays (h.ignored.old ahead r behind hlist)

/-- Once all calls have completed, nothing that they did is lost, as long as each of them stored its list over the record
that it had read, or over one that it would have made the same list of, and the list was kept. -/
theorem updates_kept (keys : Keys) (invites : Option (Stored (List PubInvite))) (ignored : Option (Stored (List Ignored)))
    {s : InviteStore} (h : Reach (act keys) (Current keys) (opened invites ignored) s) (hidle : s.Idle) :
    s.Kept keys (opened invites ignored) := by
  have hinv : Inv keys (opened invites ignored) s := by
    refine h.invariant (I := Inv keys (opened invites ignored)) ⟨?_, ?_⟩ fun s e hs he => hs.act e he
    · exact InvitesInv.start keys invites
    · exact IgnoredInv.start keys ignored
  exact hinv.kept hidle

/-! ## Calls one after another, and calls at once -/

def sampleKeys : Keys := ⟨true, false⟩

def run (es : List Event) : InviteStore := es.foldl (act sampleKeys) (opened none none)

def invite (id : String) : PubInvite := newInvite "" none 0 id ""

def make (id : String) : Event := .create "" none 0 id ""

/-- An invite is made. -/
theorem updates_kept_sample : (run [make "a", .resumeInvites 0 true, .resumeInvites 0 true]).Kept sampleKeys (opened none none) := by
  refine updates_kept sampleKeys none none (Admits.reach .start (s := opened none none) ⟨trivial, ?_, ?_, trivial⟩) ⟨rfl, rfl⟩
  · intro op v hcall
    have hreading : some (InviteOp.create (invite "a"), Phase.reading []) = some (op, .writing v) := hcall
    cases hreading
  · intro op v hcall
    have hwriting : some (InviteOp.create (invite "a"), Phase.writing [invite "a"]) = some (op, .writing v) := hcall
    cases hwriting
    exact ⟨rfl, rfl, rfl⟩

/-- Two invites are made at once. -/
def bothMade : List Event :=
  [make "a", make "b", .resumeInvites 0 true, .resumeInvites 0 true, .resumeInvites 0 true, .resumeInvites 0 true]

/-- An invite is made while another is withdrawn. -/
def madeAndWithdrawn : List Event :=
  [make "a", .resumeInvites 0 true, .resumeInvites 0 true, .revoke "a", make "b", .resumeInvites 0 true,
    .resumeInvites 0 true, .resumeInvites 0 true, .resumeInvites 0 true]

/-- Two keys are ignored at once. -/
def bothIgnored : List Event :=
  [.ignore "x" 0, .ignore "y" 0, .resumeIgnored 0 true, .resumeIgnored 0 true, .resumeIgnored 0 true, .resumeIgnored 0 true]

/-- One of the invites is not there; the withdrawn one is there again; one of the keys is not ignored. -/
theorem updates_lost :
    ((run bothMade).Idle ∧ ¬ (run bothMade).Kept sampleKeys (opened none none)) ∧
      ((run madeAndWithdrawn).Idle ∧ ¬ (run madeAndWithdrawn).Kept sampleKeys (opened none none)) ∧
      (run bothIgnored).Idle ∧ ¬ (run bothIgnored).Kept sampleKeys (opened none none) := by
  refine ⟨⟨⟨rfl, rfl⟩, fun h => ?_⟩, ⟨⟨rfl, rfl⟩, fun h => ?_⟩, ⟨rfl, rfl⟩, fun h => ?_⟩
  · have hin := h.created (invite "a") (.inl (by decide)) (by decide)
    revert hin
    decide
  · have hnot := h.revoked "a" [.done (.create (invite "b")), .done (.revoke "a"), .called (.create (invite "b"))]
      [.done (.create (invite "a")), .called (.create (invite "a"))] rfl
    have hin := hnot (by
      intro inv hinv
      simp only [List.mem_cons, Mark.done.injEq, InviteOp.create.injEq, reduceCtorEq, List.not_mem_nil, or_false] at hinv
      subst hinv
      decide) (invite "a") (by decide)
    exact hin rfl
  · rcases h.ignored "x" ["y"] [] rfl (by decide) (by decide) with hin | ⟨others, hnd, hsub, -, hmany⟩
    · revert hin
      decide
    · have hle := hnd.length_le_of_subset hsub
      have hmax : IGNORED_MAX = 512 := rfl
      rw [List.length_singleton] at hle
      omega

end InviteStore

end EncedoChat.Invites
