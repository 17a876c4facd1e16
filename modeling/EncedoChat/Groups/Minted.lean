import EncedoChat.Groups.Layer
import EncedoChat.Groups.Restore

/-!
# One secret for an epoch

Two distributions handed out for one group and epoch say the same, over any number of restarts, as long as no record is
stored over its own epoch or a later one and no blob comes back that is older than what was handed out.
-/

namespace EncedoChat.Groups

open EncedoChat.Group (Suite Identities Env Session SendChain Gid SkdFields SkdError Open Time ReceiverOpts)

variable {S : Suite} {I : Identities} {E : Env S I} {B : Backend}

theorem Texts.b64_inj (T : Texts E) {b b' : Bytes} (h : E.b64 b = E.b64 b') : b = b' := by
  have := congrArg E.unb64 h
  rwa [T.unb64_b64, T.unb64_b64, Option.some.injEq] at this

/-- What is said of a group: an epoch of it, with its secret and its roster. -/
structure Word (E : Env S I) where
  gid : E.Text
  epoch : E.Epoch
  secret : E.Text
  roster : List I.Pub

def Word.ofSkd (skd : SkdFields E) : Word E := ⟨skd.gid, skd.epoch, skd.secret, skd.roster⟩

def GroupSnapshot.word (s : GroupSnapshot E B) : Word E := ⟨s.gid, s.epoch, s.secret, s.roster.map Member.pub⟩

def Held.word (gid : Bytes) (c : Held E B) : Word E :=
  ⟨E.b64 gid, c.base.epoch, E.b64 c.base.secret, c.base.roster.map Member.pub⟩

def Admission.word (a : Admission E B) : Word E :=
  ⟨E.b64 a.gid.1, a.epoch, E.b64 a.secret, a.roster.map Member.pub⟩

namespace Layer

/-- No two distributions handed out for one group and epoch differ in secret or roster. -/
def OneSecret (w : Layer E B) : Prop :=
  ∀ x ∈ w.handed, ∀ y ∈ w.handed, x.skd.gid = y.skd.gid → x.skd.epoch = y.skd.epoch →
    x.skd.secret = y.skd.secret ∧ x.skd.roster = y.skd.roster

/-- Nothing is known of the group. -/
def Unknown (w : Layer E B) (gid : Bytes) : Prop :=
  w.engine.recs.get gid = none ∧ w.store.blobs.get gid = none ∧ ∀ x ∈ w.handed, x.skd.gid ≠ E.b64 gid

/-- What a call has to meet for the record that the manager stores for it: a new group's id is new, and a blob that comes
back is no older than what was handed out of its group. -/
def MayStore (w : Layer E B) (a : Admission E B) : Option (Call E B) → Prop
  | some (.creating ..) => w.Unknown a.gid.1
  | some (.restoring ..) => ∀ x ∈ w.handed, x.skd.gid = E.b64 a.gid.1 → x.skd.epoch ≤ a.epoch
  | _ => True

/-- A record is stored only over one of an older epoch. -/
def Stores (w : Layer E B) (id : Nat) : Option (Waiting E B) → Prop
  | some (.creating a _ _) =>
    (∀ c ∈ w.engine.recs.get a.gid.1, c.base.epoch < a.epoch) ∧ w.MayStore a (w.calls.get id)
  | _ => True

end Layer

/-- What the layer does of its own accord. -/
def LayerAct.Own : LayerAct E B → Prop
  | .applySkd .. | .onInvite .. => False
  | _ => True

instance : (a : LayerAct E B) → Decidable a.Own
  | .applySkd .. | .onInvite .. => isFalse fun h => h
  | .create .. | .setMembers .. | .addMember .. | .removeMember .. | .distribute .. | .persist .. | .restore ..
  | .send .. | .receive .. | .resume .. | .stop => isTrue trivial

namespace Layer

def Minting (w : Layer E B) : LayerAct E B → Prop
  | .resume id _ _ => w.Stores id (w.engine.tasks.get id)
  | a => a.Own

section

variable [DecidableEq E.Text]

instance (w : Layer E B) (a : Admission E B) : (c : Option (Call E B)) → Decidable (w.MayStore a c)
  | some (.creating ..) => inferInstanceAs (Decidable (_ ∧ _))
  | some (.restoring ..) => inferInstanceAs (Decidable (∀ x ∈ w.handed, _))
  | none | some (.rekeying ..) | some (.opening ..) | some (.handing ..) | some (.sealing ..) | some (.listing ..)
  | some (.indexing ..) | some (.reading ..) | some (.unsealing ..) | some (.sending ..) | some .publishing => isTrue trivial

instance (w : Layer E B) (id : Nat) : (t : Option (Waiting E B)) → Decidable (w.Stores id t)
  | some (.creating ..) => inferInstanceAs (Decidable (_ ∧ _))
  | none | some (.attesting ..) | some (.founding ..) | some (.admitted ..) => isTrue trivial

instance (w : Layer E B) : (a : LayerAct E B) → Decidable (w.Minting a)
  | .resume .. => inferInstanceAs (Decidable (w.Stores ..))
  | .applySkd .. | .onInvite .. => isFalse fun h => h
  | .create .. | .setMembers .. | .addMember .. | .removeMember .. | .distribute .. | .persist .. | .restore ..
  | .send .. | .receive .. | .stop => isTrue trivial

end

end Layer

/-! ## What is said, and where -/

/-- Words of records of this process that a call holds. -/
def Call.Tells : Call E B → Word E → Prop
  | .handing _ _ skd _ _, x => ∃ s, skd = some s ∧ .ofSkd s = x
  | .sealing _ saved rest, x => saved.snap.word = x ∨ ∃ s ∈ rest, s.word = x
  | _, _ => False

/-- The word of a blob that `restore` has read. -/
def Call.Loads : Call E B → Word E → Prop
  | .unsealing saved _, x => saved.snap.word = x
  | .restoring _ saved _ _, x => saved.snap.word = x
  | _, _ => False

/-- A call that holds a word of a record. -/
def Call.tells : Call E B → Bool
  | .handing .. | .sealing .. => true
  | _ => false

/-- A call that holds a blob's word. -/
def Call.loads : Call E B → Bool
  | .unsealing .. | .restoring .. => true
  | _ => false

theorem Call.not_tells {c : Call E B} (h : c.tells = false) (x : Word E) : ¬c.Tells x := by
  intro hx
  cases c with
  | handing gid m skd todo save => cases h
  | sealing gid saved rest => cases h
  | _ => exact hx

theorem Call.not_loads {c : Call E B} (h : c.loads = false) (x : Word E) : ¬c.Loads x := by
  intro hx
  cases c with
  | unsealing saved rest => cases h
  | restoring gid saved session rest => cases h
  | _ => exact hx

namespace Layer

inductive Said (w : Layer E B) : Word E → Prop
  | handed {h : Handed E} : h ∈ w.handed → Said w (.ofSkd h.skd)
  | stored {gid : Bytes} {saved : Saved E B} : w.store.blobs.get gid = some saved → Said w saved.snap.word
  | held {gid : Bytes} {c : Held E B} : w.engine.recs.get gid = some c → Said w (c.word gid)
  | tells {id : Nat} {c : Call E B} {x : Word E} : w.calls.get id = some c → c.Tells x → Said w x
  | loads {id : Nat} {c : Call E B} {x : Word E} : w.calls.get id = some c → c.Loads x → Said w x

/-- The group of a word has a record. -/
def Holds (w : Layer E B) (x : Word E) : Prop := ∃ gid c, x.gid = E.b64 gid ∧ w.engine.recs.get gid = some c

/-- What a task of the manager is for. -/
def TaskFits (w : Layer E B) (id : Nat) : Waiting E B → Prop
  | .founding _ => ∃ gid name roster, w.calls.get id = some (.creating gid name roster)
  | .creating a _ call => call = none ∧
    ((∃ gid name roster, w.calls.get id = some (.creating gid name roster)) ∨
      (∃ gid roster, w.calls.get id = some (.rekeying gid roster) ∧ (w.engine.recs.get a.gid.1).isSome = true) ∨
      ∃ gid saved session rest, w.calls.get id = some (.restoring gid saved session rest) ∧ a.word = saved.snap.word)
  | _ => False

/-- A call holds words of records, and of blobs as they are unless the group has a record by now. -/
structure Fits (w : Layer E B) (c : Call E B) : Prop where
  tells : ∀ x, c.Tells x → w.Holds x
  loads : ∀ x, c.Loads x → w.Holds x ∨ ∃ gid saved, w.store.blobs.get gid = some saved ∧ saved.snap.word = x
  sealed : ∀ gid saved rest, c = .sealing gid saved rest → saved.snap.gid = E.b64 gid

theorem Fits.loading {w : Layer E B} {c : Call E B} (hc : c.tells = false)
    (hloads : ∀ x, c.Loads x → w.Holds x ∨ ∃ gid saved, w.store.blobs.get gid = some saved ∧ saved.snap.word = x) :
    w.Fits c where
  tells x hx := absurd hx (Call.not_tells hc x)
  loads := hloads
  sealed gid saved rest he := by
    subst he
    cases hc

theorem Fits.silent {w : Layer E B} {c : Call E B} (hc : (c.tells || c.loads) = false) : w.Fits c := by
  rw [Bool.or_eq_false_iff] at hc
  exact .loading hc.1 fun x hx => absurd hx (Call.not_loads hc.2 x)

structure Inv (w : Layer E B) : Prop where
  plain : ∀ x, w.Said x → ∃ gid secret, x.gid = E.b64 gid ∧ x.secret = E.b64 secret
  once : ∀ x y, w.Said x → w.Said y → x.gid = y.gid → x.epoch = y.epoch → x = y
  latest : ∀ gid c x, w.engine.recs.get gid = some c → w.Said x → x.gid = E.b64 gid → x.epoch ≤ c.base.epoch
  filed : ∀ gid c, w.engine.recs.get gid = some c → c.base.session.view.gid = gid ∧
    ∃ g, w.engine.heap[c.session]? = some g ∧ g.view.gid = gid
  named : ∀ gid saved, w.store.blobs.get gid = some saved → saved.snap.gid = E.b64 gid
  calls : ∀ id c, w.calls.get id = some c → w.Fits c
  tasks : ∀ id t, w.engine.tasks.get id = some t → w.TaskFits id t

variable {w w' : Layer E B} {id : Nat} {c : Call E B} {reached : Bool}

theorem inv_start (me : I.Pub) (base : Bool) : (start me base : Layer E B).Inv := by
  have hsaid : ∀ x, ¬(start me base : Layer E B).Said x := by
    intro x h
    cases h with
    | handed h => cases h
    | stored h => cases h
    | held h => cases h
    | tells h => cases h
    | loads h => cases h
  constructor
  · exact fun x h => absurd h (hsaid x)
  · exact fun x _ h => absurd h (hsaid x)
  all_goals intros; contradiction

/-- The calls that the manager works for are there in both. -/
theorem TaskFits.mono {t : Waiting E B} (h : w.TaskFits id t)
    (hcalls : ∀ c, w.calls.get id = some c → (∀ on view s, c ≠ .sending on view s) → w'.calls.get id = some c)
    (hrecs : ∀ gid, (w.engine.recs.get gid).isSome = true → (w'.engine.recs.get gid).isSome = true) :
    w'.TaskFits id t := by
  cases t with
  | founding a =>
      obtain ⟨gid, name, roster, hc⟩ := h
      exact ⟨gid, name, roster, hcalls _ hc (fun _ _ _ he => by cases he)⟩
  | creating a cur call =>
      obtain ⟨hcall, ⟨gid, name, roster, hc⟩ | ⟨gid, roster, hc, hr⟩ | ⟨gid, saved, session, rest, hc, hw⟩⟩ := h
      · exact ⟨hcall, Or.inl ⟨gid, name, roster, hcalls _ hc (fun _ _ _ he => by cases he)⟩⟩
      · exact ⟨hcall, Or.inr (Or.inl ⟨gid, roster, hcalls _ hc (fun _ _ _ he => by cases he), hrecs _ hr⟩)⟩
      · exact ⟨hcall, Or.inr (Or.inr ⟨gid, saved, session, rest, hcalls _ hc (fun _ _ _ he => by cases he), hw⟩)⟩
  | attesting call => exact h
  | admitted session call => exact h

/-- Records and blobs stay, and no word is new. -/
theorem Inv.keep (h : w.Inv) (hengine : w'.engine = w.engine) (hblobs : w'.store.blobs = w.store.blobs)
    (hsaid : ∀ x, w'.Said x → w.Said x) (hcalls : ∀ i c, w'.calls.get i = some c → w.Fits c)
    (hkeep : ∀ i, (w.engine.tasks.get i).isSome = true → w'.calls.get i = w.calls.get i) : w'.Inv where
  plain x hx := h.plain x (hsaid x hx)
  once x y hx hy := h.once x y (hsaid x hx) (hsaid y hy)
  latest gid c x hc hx := h.latest gid c x (hengine ▸ hc) (hsaid x hx)
  filed := by
    rw [hengine]
    exact h.filed
  named := by
    rw [hblobs]
    exact h.named
  calls i c hc := by
    obtain ⟨htells, hloads, hsealed⟩ := hcalls i c hc
    constructor
    · simpa only [Holds, hengine] using htells
    · simpa only [Holds, hengine, hblobs] using hloads
    · exact hsealed
  tasks i t ht := by
    rw [hengine] at ht
    refine (h.tasks i t ht).mono ?_ ?_
    · intro c hc _
      rw [hkeep i (by rw [ht]; rfl), hc]
    · rw [hengine]
      exact fun _ hr => hr

theorem said_put {x : Word E} (hc : ∀ x, c.Tells x ∨ c.Loads x → w.Said x) (h : (w.put id c).Said x) : w.Said x := by
  cases h with
  | handed h => exact .handed h
  | stored h => exact .stored h
  | held h => exact .held h
  | tells h hx =>
      obtain ⟨-, rfl⟩ | ⟨-, h⟩ := OrdMap.get_set_some h
      · exact hc x (Or.inl hx)
      · exact .tells h hx
  | loads h hx =>
      obtain ⟨-, rfl⟩ | ⟨-, h⟩ := OrdMap.get_set_some h
      · exact hc x (Or.inr hx)
      · exact .loads h hx

theorem Inv.put (h : w.Inv) (ht : w.engine.tasks.get id = none) (hc : w.Fits c)
    (hx : ∀ x, c.Tells x ∨ c.Loads x → w.Said x) : (w.put id c).Inv := by
  refine h.keep (rfl : (w.put id c).engine = w.engine) rfl (fun x => said_put hx) ?_ ?_
  · intro i d hd
    obtain ⟨-, rfl⟩ | ⟨-, hd⟩ := OrdMap.get_set_some hd
    · exact hc
    · exact h.calls i d hd
  · intro i hi
    refine OrdMap.get_set_ne _ _ ?_
    rintro rfl
    rw [ht] at hi
    cases hi

/-- A call that holds no word. -/
theorem Inv.putQuiet (h : w.Inv) (ht : w.engine.tasks.get id = none) (hc : (c.tells || c.loads) = false) :
    (w.put id c).Inv := by
  apply h.put ht (.silent hc)
  rw [Bool.or_eq_false_iff] at hc
  rintro x (hx | hx)
  · exact absurd hx (Call.not_tells hc.1 x)
  · exact absurd hx (Call.not_loads hc.2 x)

theorem Inv.done (h : w.Inv) (ht : w.engine.tasks.get id = none) : (w.done id).Inv := by
  refine h.keep (rfl : (w.done id).engine = w.engine) rfl ?_ ?_ ?_
  · intro x hx
    cases hx with
    | handed hx => exact .handed hx
    | stored hx => exact .stored hx
    | held hx => exact .held hx
    | tells hc hx => exact .tells (OrdMap.get_delete_some hc).2 hx
    | loads hc hx => exact .loads (OrdMap.get_delete_some hc).2 hx
  · exact fun i d hd => h.calls i d (OrdMap.get_delete_some hd).2
  · intro i hi
    refine OrdMap.get_delete_ne _ ?_
    rintro rfl
    rw [ht] at hi
    cases hi

theorem Inv.setInfo (h : w.Inv) (gid : Bytes) (g : GroupInfo E) : (w.setInfo gid g).Inv := by
  refine h.keep (rfl : (w.setInfo gid g).engine = w.engine) rfl ?_ h.calls fun _ _ => rfl
  intro x hx
  cases hx with
  | handed hx => exact .handed hx
  | stored hx => exact .stored hx
  | held hx => exact .held hx
  | tells hc hx => exact .tells hc hx
  | loads hc hx => exact .loads hc hx

/-! ## Words of a record -/

theorem Inv.word_snapshot (h : w.Inv) {gid : Bytes} {r : Held E B} (hr : w.engine.recs.get gid = some r) :
    (w.engine.current r).snapshot.word = r.word gid := by
  obtain ⟨-, g, hg, hv⟩ := h.filed gid r hr
  simp [GroupSnapshot.word, GroupRec.snapshot, Engine.current, hg, hv, Held.word]

theorem Inv.snapshot (h : w.Inv) {s : GroupSnapshot E B} (hs : s ∈ w.engine.snapshot) :
    w.Said s.word ∧ w.Holds s.word := by
  obtain ⟨⟨gid, r⟩, hr, rfl⟩ := List.mem_map.mp hs
  have hr := OrdMap.get_eq_some.mpr hr
  rw [h.word_snapshot hr]
  exact ⟨.held hr, gid, r, rfl, hr⟩

theorem Inv.word_skdFor (h : w.Inv) {K : RosterKeys E B} {gid : Bytes} {m : I.Pub} {skd : SkdFields E}
    (hs : w.engine.skdFor K gid m = .ok (some skd)) : w.Said (.ofSkd skd) ∧ w.Holds (.ofSkd skd) := by
  unfold Engine.skdFor at hs
  cases hr : w.engine.recs.get gid with
  | none =>
      rw [hr] at hs
      cases hs
  | some r =>
      obtain ⟨-, g, hg, hv⟩ := h.filed gid r hr
      have hword : Word.ofSkd skd = r.word gid := by
        rw [hr] at hs
        dsimp only at hs
        split at hs
        · cases hs
        · split at hs
          · cases hs
            simp [Word.ofSkd, Held.word, Engine.current, hg, hv]
          · split at hs
            · cases hs
            · cases hs
              simp [Word.ofSkd, Held.word, Engine.current, hg, hv]
      rw [hword]
      exact ⟨.held hr, gid, r, rfl, hr⟩

/-! ## Calls of the layer -/

variable {K : RosterKeys E B}

theorem Inv.leads (T : Texts E) (h : w.Inv) (ht : w.engine.tasks.get id = none) {snaps : GroupSnapshot E B → Prop}
    (hs : ∀ s, snaps s → w.Said s.word ∧ w.Holds s.word) (hl : w.Leads K id snaps w') : w'.Inv := by
  cases hl with
  | done => exact h.done ht
  | @put c hc =>
      cases c with
      | opening gid session next => exact h.putQuiet ht rfl
      | listing stored => exact h.putQuiet ht rfl
      | reading gids => exact h.putQuiet ht rfl
      | handing gid m skd todo save =>
          apply h.put ht
          · constructor
            · rintro x ⟨s, rfl, rfl⟩
              exact (h.word_skdFor hc).2
            · intro x hx
              cases hx
            · intro _ _ _ he
              cases he
          · rintro x (⟨s, rfl, rfl⟩ | hx)
            · exact (h.word_skdFor hc).1
            · cases hx
      | sealing gid saved rest =>
          obtain ⟨hgid, hsnaps⟩ := hc
          apply h.put ht
          · constructor
            · rintro x (rfl | ⟨s, hm, rfl⟩)
              · exact (hs _ (hsnaps _ (Or.inl rfl))).2
              · exact (hs s (hsnaps s (Or.inr hm))).2
            · intro x hx
              cases hx
            · intro gid' saved' rest' he
              cases he
              obtain ⟨gid', -, hg, -⟩ := h.plain _ (hs _ (hsnaps _ (Or.inl rfl))).1
              have hg : saved.snap.gid = E.b64 gid' := hg
              rw [hg, T.unb64_b64] at hgid
              cases hgid
              exact hg
          · rintro x ((rfl | ⟨s, hm, rfl⟩) | hx)
            · exact (hs _ (hsnaps _ (Or.inl rfl))).1
            · exact (hs s (hsnaps s (Or.inr hm))).1
            · cases hx
      | _ => exact hc.elim

theorem Inv.open_ (T : Texts E) (h : w.Inv) (ht : w.engine.tasks.get id = none) (gid : Bytes) (next : Opened) :
    (w.open_ id gid next).Inv :=
  h.leads T ht (fun _ hs => h.snapshot hs) (leads_open (fun _ _ _ => none) w id _ gid next)

/-- A distribution that a call holds is handed out. -/
theorem Inv.handOut (h : w.Inv) {x : Handed E} (hx : w.Said (.ofSkd x.skd)) :
    ({ w with handed := x :: w.handed } : Layer E B).Inv := by
  refine h.keep (rfl : ({ w with handed := x :: w.handed } : Layer E B).engine = w.engine) rfl ?_ h.calls fun _ _ => rfl
  intro y hy
  cases hy with
  | handed hy =>
      obtain rfl | hy := List.mem_cons.mp hy
      · exact hx
      · exact .handed hy
  | stored hy => exact .stored hy
  | held hy => exact .held hy
  | tells hc hy => exact .tells hc hy
  | loads hc hy => exact .loads hc hy

/-- A snapshot that a call holds is stored; another blob of its group that was read is of a group held by now. -/
theorem Inv.store (h : w.Inv) {gid : Bytes} {saved : Saved E B} (hgid : saved.snap.gid = E.b64 gid)
    (hsaid : w.Said saved.snap.word) (hholds : w.Holds saved.snap.word) :
    ({ w with store := { w.store with blobs := w.store.blobs.set gid saved } } : Layer E B).Inv where
  plain x hx := h.plain x (said_store hx)
  once x y hx hy := h.once x y (said_store hx) (said_store hy)
  latest gid c x hc hx := h.latest gid c x hc (said_store hx)
  filed := h.filed
  named gid' saved' hs := by
    obtain ⟨rfl, rfl⟩ | ⟨-, hs⟩ := OrdMap.get_set_some hs
    · exact hgid
    · exact h.named gid' saved' hs
  calls i c hc := by
    obtain ⟨htells, hloads, hsealed⟩ := h.calls i c hc
    refine ⟨htells, ?_, hsealed⟩
    intro x hx
    obtain hh | ⟨gid', saved', hs, rfl⟩ := hloads x hx
    · exact Or.inl hh
    · by_cases hg : gid' = gid
      · obtain ⟨gid'', r, he, hr⟩ := hholds
        refine Or.inl ⟨gid'', r, ?_, hr⟩
        rw [← he]
        exact (h.named gid' saved' hs).trans (hg ▸ hgid.symm)
      · exact Or.inr ⟨gid', saved', (OrdMap.get_set_ne _ _ hg).trans hs, rfl⟩
  tasks i t ht := (h.tasks i t ht).mono (fun _ hc _ => hc) fun _ hr => hr
where
  said_store {x : Word E}
      (hx : ({ w with store := { w.store with blobs := w.store.blobs.set gid saved } } : Layer E B).Said x) :
      w.Said x := by
    cases hx with
    | handed hx => exact .handed hx
    | stored hs =>
        obtain ⟨-, rfl⟩ | ⟨-, hs⟩ := OrdMap.get_set_some hs
        · exact hsaid
        · exact .stored hs
    | held hx => exact .held hx
    | tells hc hx => exact .tells hc hx
    | loads hc hx => exact .loads hc hx

/-! ## Records that are filed anew -/

/-- Records keep their words, and only sends are changed. -/
theorem Inv.settle (h : w.Inv) (hstore : w'.store = w.store) (hhanded : w'.handed = w.handed)
    (hrecs : ∀ gid, (w'.engine.recs.get gid).map (Held.word gid) = (w.engine.recs.get gid).map (Held.word gid))
    (hfiled : ∀ gid r, w'.engine.recs.get gid = some r → r.base.session.view.gid = gid ∧
      ∃ g, w'.engine.heap[r.session]? = some g ∧ g.view.gid = gid)
    (hcalls : ∀ i c, w'.calls.get i = some c → w.calls.get i = some c ∨ ∃ on view s, c = .sending on view s)
    (hkeep : ∀ i c, w.calls.get i = some c → (∀ on view s, c ≠ .sending on view s) → w'.calls.get i = some c)
    (htasks : w'.engine.tasks = w.engine.tasks) : w'.Inv := by
  have hback : ∀ gid r', w'.engine.recs.get gid = some r' →
      ∃ r, w.engine.recs.get gid = some r ∧ r.word gid = r'.word gid := by
    intro gid r' hr'
    have he := hrecs gid
    rw [hr', Option.map_some] at he
    exact Option.map_eq_some_iff.mp he.symm
  have hthere : ∀ gid, (w.engine.recs.get gid).isSome = true → (w'.engine.recs.get gid).isSome = true := by
    intro gid hr
    rw [← Option.isSome_map (f := Held.word gid), hrecs, Option.isSome_map]
    exact hr
  have hholds : ∀ x, w.Holds x → w'.Holds x := by
    rintro x ⟨gid, r, hx, hr⟩
    obtain ⟨r', hr'⟩ := Option.isSome_iff_exists.mp (hthere gid (by rw [hr]; rfl))
    exact ⟨gid, r', hx, hr'⟩
  have hsaid : ∀ x, w'.Said x → w.Said x := by
    intro x hx
    cases hx with
    | handed hx => exact .handed (hhanded ▸ hx)
    | stored hx => exact .stored (hstore ▸ hx)
    | held hx =>
        obtain ⟨r, hr, he⟩ := hback _ _ hx
        rw [← he]
        exact .held hr
    | tells hc hx =>
        obtain hc | ⟨on, view, s, rfl⟩ := hcalls _ _ hc
        · exact .tells hc hx
        · cases hx
    | loads hc hx =>
        obtain hc | ⟨on, view, s, rfl⟩ := hcalls _ _ hc
        · exact .loads hc hx
        · cases hx
  constructor
  · exact fun x hx => h.plain x (hsaid x hx)
  · exact fun x y hx hy => h.once x y (hsaid x hx) (hsaid y hy)
  · intro gid r x hr hx hg
    obtain ⟨r', hr', he⟩ := hback gid r hr
    have he : r'.base.epoch = r.base.epoch := congrArg Word.epoch he
    exact he ▸ h.latest gid r' x hr' (hsaid x hx) hg
  · exact hfiled
  · rw [hstore]
    exact h.named
  · intro i c hc
    obtain hc | ⟨on, view, s, rfl⟩ := hcalls i c hc
    · obtain ⟨htells, hloads, hsealed⟩ := h.calls i c hc
      refine ⟨fun x hx => hholds x (htells x hx), fun x hx => ?_, hsealed⟩
      rw [hstore]
      exact (hloads x hx).imp_left (hholds x)
    · exact .silent rfl
  · intro i t ht
    rw [htasks] at ht
    exact (h.tasks i t ht).mono (hkeep i) hthere

/-- Tasks of the manager change. -/
theorem Inv.retask (h : w.Inv) {tasks : OrdMap Nat (Waiting E B)}
    (ht : ∀ i t, tasks.get i = some t → w.engine.tasks.get i = some t ∨ w.TaskFits i t) :
    ({ w with engine := { w.engine with tasks } } : Layer E B).Inv where
  plain x hx := h.plain x (said_retask hx)
  once x y hx hy := h.once x y (said_retask hx) (said_retask hy)
  latest gid r x hr hx := h.latest gid r x hr (said_retask hx)
  filed := h.filed
  named := h.named
  calls i c hc := ⟨(h.calls i c hc).tells, (h.calls i c hc).loads, (h.calls i c hc).sealed⟩
  tasks i t hi := by
    have hfit : w.TaskFits i t := (ht i t hi).elim (h.tasks i t) fun hf => hf
    exact hfit.mono (fun _ hc _ => hc) fun _ hr => hr
where
  said_retask {x : Word E} (hx : ({ w with engine := { w.engine with tasks } } : Layer E B).Said x) : w.Said x := by
    cases hx with
    | handed hx => exact .handed hx
    | stored hx => exact .stored hx
    | held hx => exact .held hx
    | tells hc hx => exact .tells hc hx
    | loads hc hx => exact .loads hc hx

/-- A session changes, not its view. -/
theorem filed_modify {heap : List (GroupSession S I)} {gid : Bytes} {s n : Nat} {f : GroupSession S I → GroupSession S I}
    (hf : ∀ g, (f g).view = g.view) (h : ∃ g, heap[s]? = some g ∧ g.view.gid = gid) :
    ∃ g, (heap.modify n f)[s]? = some g ∧ g.view.gid = gid := by
  obtain ⟨g, hg, hv⟩ := h
  rw [List.getElem?_modify, hg]
  by_cases hn : n = s
  · exact ⟨f g, by simp [hn], by rw [hf, hv]⟩
  · exact ⟨g, by simp [hn], hv⟩

theorem Inv.receive (h : w.Inv) (session : Nat) (p : I.Pub) (o : ReceiverOpts) (opens : Open S) (t t' : Time)
    (n : Nat) (header ct : Bytes) :
    ({ w with engine := w.engine.act (.receive session p o opens t t' n header ct) } : Layer E B).Inv := by
  refine h.settle rfl rfl (fun _ => rfl) ?_ (fun _ _ hc => Or.inl hc) (fun _ _ hc _ => hc) rfl
  intro gid r hr
  refine ⟨(h.filed gid r hr).1, filed_modify ?_ (h.filed gid r hr).2⟩
  intro g
  unfold GroupSession.openAt
  split <;> rfl

theorem Inv.setChain (h : w.Inv) (c : SendChain S) (on : ChainRef) : (w.setChain c on).Inv := by
  cases on with
  | current s =>
      refine h.settle rfl rfl (fun _ => rfl) ?_ (fun _ _ hc => Or.inl hc) (fun _ _ hc _ => hc) rfl
      intro gid r hr
      exact ⟨(h.filed gid r hr).1, filed_modify (fun _ => rfl) (h.filed gid r hr).2⟩
  | replaced i => exact h.settle rfl rfl (fun _ => rfl) h.filed (fun _ _ hc => Or.inl hc) (fun _ _ hc _ => hc) rfl

theorem Inv.keepKid (h : w.Inv) (gid : Bytes) (kid : Option B.Kid) : (w.keepKid gid kid).Inv := by
  unfold Layer.keepKid
  cases hr : w.engine.recs.get gid with
  | none => exact h
  | some r =>
      refine h.settle rfl rfl ?_ ?_ (fun _ _ hc => Or.inl hc) (fun _ _ hc _ => hc) rfl
      · intro gid'
        rw [OrdMap.get_set]
        split
        · rename_i he
          rw [he, hr]
          rfl
        · rfl
      · intro gid' r' hr'
        obtain ⟨rfl, rfl⟩ | ⟨-, hr'⟩ := OrdMap.get_set_some hr'
        · exact h.filed _ r hr
        · exact h.filed gid' r' hr'

theorem Inv.importChains (h : w.Inv) (session : Nat) (c : Chains S I) : (w.importChains session c).Inv := by
  unfold Layer.importChains
  cases w.engine.heap[session]? with
  | none => exact h
  | some g =>
      refine h.settle rfl rfl (fun _ => rfl) ?_ ?_ ?_ rfl
      · intro gid r hr
        exact ⟨(h.filed gid r hr).1, filed_modify (fun _ => rfl) (h.filed gid r hr).2⟩
      · intro i c' hc'
        rw [OrdMap.get_map] at hc'
        obtain ⟨c, hc, rfl⟩ := Option.map_eq_some_iff.mp hc'
        cases c with
        | sending on view s => exact Or.inr ⟨_, _, _, rfl⟩
        | _ => exact Or.inl hc
      · intro i c' hc' hne
        rw [OrdMap.get_map, hc', Option.map_some]
        cases c' with
        | sending on view s => exact absurd rfl (hne on view s)
        | _ => rfl

/-- The log is not read. -/
theorem Inv.note (h : w.Inv) (log : List (Event S)) : ({ w with log } : Layer E B).Inv :=
  h.settle rfl rfl (fun _ => rfl) h.filed (fun _ _ hc => Or.inl hc) (fun _ _ hc _ => hc) rfl

theorem Inv.sendOn (h : w.Inv) (ht : w.engine.tasks.get id = none) (on : ChainRef) (view : Session I) (s : Sealing S) :
    (w.sendOn id on view s).Inv := by
  have hput : ∀ {w' : Layer E B} {c : Call E B}, w'.Inv → w'.engine.tasks.get id = none →
      (c = .publishing ∨ ∃ s, c = .sending on view s) → (w'.put id c).Inv := by
    rintro w' c h' ht' (rfl | ⟨s, rfl⟩) <;> exact h'.putQuiet ht' rfl
  cases s with
  | keyed header pt key =>
      rw [Layer.sendOn]
      cases w.chain on with
      | none => exact h
      | some c => exact hput (h.note _) ht (Or.inr ⟨_, rfl⟩)
  | encrypting b =>
      rw [Layer.sendOn]
      cases w.chain on with
      | none => exact h
      | some c => exact hput h ht (Or.inr ⟨_, rfl⟩)
  | stepping b next =>
      rw [Layer.sendOn]
      cases w.chain on with
      | none => exact h
      | some c =>
          refine hput (h.setChain _ on) ?_ (Or.inr ⟨_, rfl⟩)
          cases on <;> exact ht
  | tagging b => exact hput (h.note _) ht (Or.inl rfl)

/-! ## Restoring a blob -/

theorem word_admissionOf (T : Texts E) {s : GroupSnapshot E B} {a : Admission E B}
    (hplain : ∃ gid secret, s.word.gid = E.b64 gid ∧ s.word.secret = E.b64 secret)
    (ha : GroupManager.admissionOf s = some a) : a.word = s.word := by
  obtain ⟨gid, secret, hgid, hsecret⟩ := hplain
  have hgid : s.gid = E.b64 gid := hgid
  have hsecret : s.secret = E.b64 secret := hsecret
  unfold GroupManager.admissionOf GroupManager.readGid at ha
  rw [hgid, hsecret, T.unb64_b64, T.unb64_b64, Option.bind_some] at ha
  obtain ⟨g, hg, ha⟩ := Option.bind_eq_some_iff.mp ha
  obtain ⟨gk, -, ha⟩ := Option.bind_eq_some_iff.mp ha
  obtain ⟨gkPub, -, ha⟩ := Option.bind_eq_some_iff.mp ha
  cases ha
  split at hg
  · cases hg
    simp [Admission.word, GroupSnapshot.word, hgid, hsecret]
  · cases hg

theorem Inv.admitSaved (T : Texts E) (h : w.Inv) (ht : w.engine.tasks.get id = none) {saved : Saved E B}
    {rest : List Bytes} (hc : w.calls.get id = some (.unsealing saved rest)) : (w.admitSaved id saved rest).Inv := by
  unfold Layer.admitSaved
  cases ha : GroupManager.admissionOf saved.snap with
  | none => exact h.putQuiet ht rfl
  | some a =>
      dsimp only
      generalize (w.engine.recs.get a.gid.1).bind (fun c => if a.epoch ≤ c.base.epoch then some c.session else none) = held
      have hsaid : w.Said saved.snap.word := .loads hc rfl
      have hput : (w.put id (.restoring a.gid.1 saved held rest)).Inv := by
        apply h.put ht
        · exact .loading rfl fun x hx => (h.calls id _ hc).loads x hx
        · rintro x (hx | rfl)
          · cases hx
          · exact hsaid
      obtain ⟨tasks, he, htasks⟩ := w.engine.admit_alone id a
      rw [he]
      refine hput.retask ?_
      intro i t hi
      obtain ⟨-, hi⟩ | ⟨rfl, cur, rfl⟩ := htasks i t hi
      · exact Or.inl hi
      · refine Or.inr ⟨rfl, Or.inr (Or.inr ⟨_, _, _, _, OrdMap.get_set_self .., ?_⟩)⟩
        exact word_admissionOf T (h.plain _ hsaid) ha

@[simp] theorem tasks_keepKid (w : Layer E B) (gid : Bytes) (kid : Option B.Kid) :
    (w.keepKid gid kid).engine.tasks = w.engine.tasks := by
  unfold Layer.keepKid
  split <;> rfl

@[simp] theorem tasks_importChains (w : Layer E B) (session : Nat) (c : Chains S I) :
    (w.importChains session c).engine.tasks = w.engine.tasks := by
  unfold Layer.importChains
  split <;> rfl

theorem Inv.restored (T : Texts E) (h : w.Inv) (ht : w.engine.tasks.get id = none) (gid : Bytes) (saved : Saved E B)
    (session : Nat) (rest : List Bytes) : (w.restored id gid saved session rest).Inv := by
  have hkid := h.keepKid gid saved.snap.memberGkKid
  have htask : (w.keepKid gid saved.snap.memberGkKid).engine.tasks.get id = none := by rwa [tasks_keepKid]
  unfold Layer.restored
  dsimp only
  split
  · exact hkid.putQuiet htask rfl
  · rename_i c _
    refine ((hkid.importChains session c).setInfo gid _).open_ T ?_ gid _
    show (Layer.importChains _ _ _).engine.tasks.get id = none
    rwa [tasks_importChains]

/-! ## A step of a call -/

theorem Inv.goOn (T : Texts E) (h : w.Inv) (ht : w.engine.tasks.get id = none) (reached : Bool)
    (hc : w.calls.get id = some c) : (w.goOn K id reached c).Inv := by
  cases c with
  | creating gid name roster => exact (h.setInfo gid _).open_ T ht gid _
  | rekeying gid roster =>
      rw [Layer.goOn]
      split
      · exact h.done ht
      · exact (h.setInfo gid _).open_ T ht gid _
  | opening gid session next =>
      have h' : (w.enter gid session).Inv ∧ (w.enter gid session).engine.tasks.get id = none := by
        unfold Layer.enter
        split
        · exact ⟨h, ht⟩
        · exact ⟨h.setInfo gid _, ht⟩
      exact h'.1.leads T h'.2 (fun s hs => h'.1.snapshot hs) (leads_opened K _ id gid next)
  | handing gid m skd todo save =>
      obtain ⟨h', ht'⟩ : (w.give gid m skd reached).Inv ∧ (w.give gid m skd reached).engine.tasks.get id = none := by
        unfold Layer.give
        split
        · exact ⟨h.handOut (.tells hc ⟨_, rfl, rfl⟩), ht⟩
        · exact ⟨h, ht⟩
      exact h'.leads T ht' (fun s hs => h'.snapshot hs) (leads_hand K _ id gid save todo)
  | sealing gid saved rest =>
      obtain ⟨htells, -, hsealed⟩ := h.calls id _ hc
      have h' := h.store (hsealed gid saved rest rfl) (.tells hc (Or.inl rfl)) (htells _ (Or.inl rfl))
      refine h'.leads T ht ?_ (leads_seal (K := K) fun s (hs : s ∈ rest) => hs)
      intro s hs
      exact ⟨.tells hc (Or.inr ⟨s, hs, rfl⟩), htells _ (Or.inr ⟨s, hs, rfl⟩)⟩
  | listing stored => exact h.putQuiet ht rfl
  | indexing groups =>
      refine (Inv.keep h (rfl : ({ w with store := { w.store with groups } } : Layer E B).engine = w.engine) rfl ?_ h.calls
        fun _ _ => rfl).done ht
      intro x hx
      cases hx with
      | handed hx => exact .handed hx
      | stored hx => exact .stored hx
      | held hx => exact .held hx
      | tells hc hx => exact .tells hc hx
      | loads hc hx => exact .loads hc hx
  | reading gids =>
      cases gids with
      | nil => exact h.done ht
      | cons gid rest =>
          rw [Layer.goOn]
          cases hs : w.store.blobs.get gid with
          | none => exact h.putQuiet ht rfl
          | some saved =>
              apply h.put ht
              · exact .loading rfl fun x hx => Or.inr ⟨gid, saved, hs, hx⟩
              · rintro x (hx | rfl)
                · cases hx
                · exact .stored hs
  | unsealing saved rest => exact h.admitSaved T ht hc
  | restoring gid saved session rest =>
      cases session with
      | none => exact h.putQuiet ht rfl
      | some session => exact h.restored T ht gid saved session rest
  | sending on view s => exact h.sendOn ht on view s
  | publishing => exact h.leads T ht (fun s hs => h.snapshot hs) (leads_persist K w id)

/-! ## A record is stored -/

/-- A word of a group we know nothing of is not said. -/
theorem Inv.unsaid (T : Texts E) (h : w.Inv) {gid : Bytes} (hu : w.Unknown gid) {x : Word E} (hx : w.Said x) :
    x.gid ≠ E.b64 gid := by
  obtain ⟨hrec, hblob, hhanded⟩ := hu
  have hholds : ∀ x, w.Holds x → x.gid ≠ E.b64 gid := by
    rintro x ⟨gid', r, hg, hr⟩ he
    obtain rfl : gid' = gid := T.b64_inj (hg.symm.trans he)
    rw [hrec] at hr
    cases hr
  have hstored : ∀ gid' saved, w.store.blobs.get gid' = some saved → saved.snap.word.gid ≠ E.b64 gid := by
    intro gid' saved hs he
    obtain rfl : gid' = gid := T.b64_inj ((h.named gid' saved hs).symm.trans he)
    rw [hblob] at hs
    cases hs
  cases hx with
  | handed hx => exact hhanded _ hx
  | stored hs => exact hstored _ _ hs
  | held hr => exact hholds _ ⟨_, _, rfl, hr⟩
  | tells hc hx => exact hholds _ ((h.calls _ _ hc).tells _ hx)
  | loads hc hx =>
      obtain hh | ⟨gid', saved, hs, rfl⟩ := (h.calls _ _ hc).loads _ hx
      · exact hholds _ hh
      · exact hstored _ _ hs

/-- A blob that comes back says what is said of its group last. -/
theorem Inv.latest_loaded (T : Texts E) (h : w.Inv) {a : Admission E B} {x : Word E}
    (hloads : w.Holds a.word ∨ ∃ gid saved, w.store.blobs.get gid = some saved ∧ saved.snap.word = a.word)
    (hsaid : w.Said a.word) (hnew : ∀ c, w.engine.recs.get a.gid.1 = some c → c.base.epoch < a.epoch)
    (hhanded : ∀ x ∈ w.handed, x.skd.gid = E.b64 a.gid.1 → x.skd.epoch ≤ a.epoch) (hx : w.Said x)
    (hg : x.gid = E.b64 a.gid.1) : x.epoch ≤ a.epoch := by
  -- a record of the group would be at this epoch at least
  have hrec : w.engine.recs.get a.gid.1 = none := by
    cases hr : w.engine.recs.get a.gid.1 with
    | none => rfl
    | some c => exact absurd (hnew c hr) (not_lt.mpr (h.latest _ c _ hr hsaid rfl))
  have hholds : ∀ x, w.Holds x → x.gid ≠ E.b64 a.gid.1 := by
    rintro x ⟨gid, r, hg, hr⟩ he
    obtain rfl : gid = a.gid.1 := T.b64_inj (hg.symm.trans he)
    rw [hrec] at hr
    cases hr
  obtain hh | ⟨gid, saved, hs, hword⟩ := hloads
  · exact absurd rfl (hholds _ hh)
  have hblob : ∀ gid' saved', w.store.blobs.get gid' = some saved' → saved'.snap.word.gid = E.b64 a.gid.1 →
      saved'.snap.word.epoch ≤ a.epoch := by
    intro gid' saved' hs' he
    have hgid : gid' = gid := T.b64_inj (by
      rw [← h.named gid' saved' hs', ← h.named gid saved hs]
      exact he.trans (congrArg Word.gid hword).symm)
    rw [hgid, hs] at hs'
    cases hs'
    exact (congrArg Word.epoch hword).le
  cases hx with
  | handed hx => exact hhanded _ hx hg
  | stored hs' => exact hblob _ _ hs' hg
  | held hr => exact absurd hg (hholds _ ⟨_, _, rfl, hr⟩)
  | tells hc hx => exact absurd hg (hholds _ ((h.calls _ _ hc).tells _ hx))
  | loads hc hx =>
      obtain hh | ⟨gid', saved', hs', rfl⟩ := (h.calls _ _ hc).loads _ hx
      · exact absurd hg (hholds _ hh)
      · exact hblob _ _ hs' hg

/-- The word of a record that is stored is the last one said of its group. -/
theorem Inv.install (T : Texts E) (h : w.Inv) (id : Nat) (drawn : List S.Key) {a : Admission E B} {held : Held E B}
    {g : GroupSession S I} (hview : held.base.session.view.gid = a.gid.1) (hsession : held.session = w.engine.heap.length)
    (hepoch : held.base.epoch = a.epoch) (hsecret : held.base.secret = a.secret) (hroster : held.base.roster = a.roster)
    (hg : g.view.gid = a.gid.1) (hle : ∀ x, w.Said x → x.gid = E.b64 a.gid.1 → x.epoch ≤ a.epoch)
    (hone : ∀ x, w.Said x → x.gid = E.b64 a.gid.1 → x.epoch = a.epoch → x = a.word) :
    ({ w with
        engine := { w.engine with
          heap := w.engine.heap ++ [g]
          recs := w.engine.recs.set a.gid.1 held
          installs := (a.gid.1, held) :: w.engine.installs
          tasks := w.engine.tasks.delete id }
        drawn } : Layer E B).Inv := by
  generalize hw' : ({ w with
        engine := { w.engine with
          heap := w.engine.heap ++ [g]
          recs := w.engine.recs.set a.gid.1 held
          installs := (a.gid.1, held) :: w.engine.installs
          tasks := w.engine.tasks.delete id }
        drawn } : Layer E B) = w'
  have hword : held.word a.gid.1 = a.word := by rw [Held.word, Admission.word, hepoch, hsecret, hroster]
  have hrecs : w'.engine.recs = w.engine.recs.set a.gid.1 held := by rw [← hw']
  have hheap : w'.engine.heap = w.engine.heap ++ [g] := by rw [← hw']
  have hcalls : w'.calls = w.calls := by rw [← hw']
  have hblobs : w'.store.blobs = w.store.blobs := by rw [← hw']
  have hmore : ∀ gid, (w.engine.recs.get gid).isSome = true → (w'.engine.recs.get gid).isSome = true := by
    intro gid hr
    rw [hrecs, OrdMap.get_set]
    split
    · rfl
    · exact hr
  have hholds : ∀ x, w.Holds x → w'.Holds x := by
    rintro x ⟨gid, r, hx, hr⟩
    obtain ⟨r', hr'⟩ := Option.isSome_iff_exists.mp (hmore gid (by rw [hr]; rfl))
    exact ⟨gid, r', hx, hr'⟩
  have hsaid : ∀ x, w'.Said x → w.Said x ∨ x = a.word := by
    intro x hx
    cases hx with
    | handed hx =>
        rw [← hw'] at hx
        exact Or.inl (.handed hx)
    | stored hs => exact Or.inl (.stored (hblobs ▸ hs))
    | held hr =>
        rw [hrecs] at hr
        obtain ⟨rfl, rfl⟩ | ⟨-, hr⟩ := OrdMap.get_set_some hr
        · exact Or.inr hword
        · exact Or.inl (.held hr)
    | tells hc hx => exact Or.inl (.tells (hcalls ▸ hc) hx)
    | loads hc hx => exact Or.inl (.loads (hcalls ▸ hc) hx)
  constructor
  · intro x hx
    obtain hx | rfl := hsaid x hx
    · exact h.plain x hx
    · exact ⟨_, _, rfl, rfl⟩
  · intro x y hx hy hgid he
    obtain hx | rfl := hsaid x hx <;> obtain hy | rfl := hsaid y hy
    · exact h.once x y hx hy hgid he
    · exact hone x hx hgid he
    · exact (hone y hy hgid.symm he.symm).symm
    · rfl
  · intro gid r x hr hx hgid
    rw [hrecs] at hr
    obtain ⟨rfl, rfl⟩ | ⟨hne, hr⟩ := OrdMap.get_set_some hr
    · rw [hepoch]
      obtain hx | rfl := hsaid x hx
      · exact hle x hx hgid
      · exact le_rfl
    · obtain hx | rfl := hsaid x hx
      · exact h.latest gid r x hr hx hgid
      · exact absurd (T.b64_inj hgid).symm hne
  · intro gid r hr
    rw [hrecs] at hr
    rw [hheap]
    obtain ⟨rfl, rfl⟩ | ⟨-, hr⟩ := OrdMap.get_set_some hr
    · refine ⟨hview, g, ?_, hg⟩
      rw [hsession]
      exact List.getElem?_concat_length ..
    · obtain ⟨hv, g', hg', hgv⟩ := h.filed gid r hr
      exact ⟨hv, g', (List.getElem?_append_left (List.getElem?_eq_some_iff.mp hg').1).trans hg', hgv⟩
  · rw [hblobs]
    exact h.named
  · intro i c hc
    rw [hcalls] at hc
    obtain ⟨htells, hloads, hsealed⟩ := h.calls i c hc
    refine ⟨fun x hx => hholds x (htells x hx), fun x hx => ?_, hsealed⟩
    rw [hblobs]
    exact (hloads x hx).imp_left (hholds x)
  · intro i t ht
    rw [← hw'] at ht
    refine (h.tasks i t (OrdMap.get_delete_some ht).2).mono ?_ hmore
    rw [hcalls]
    exact fun _ hc _ => hc

/-! ## Runs -/

theorem Inv.stop (h : w.Inv) :
    ({ w with engine := .start w.me, infos := .empty, calls := .empty, replaced := [] } : Layer E B).Inv := by
  have hsaid : ∀ x, Said { w with engine := .start w.me, infos := .empty, calls := .empty, replaced := [] } x →
      w.Said x := by
    intro x hx
    cases hx with
    | handed hx => exact .handed hx
    | stored hx => exact .stored hx
    | held hr => cases hr
    | tells hc _ => cases hc
    | loads hc _ => cases hc
  constructor
  · exact fun x hx => h.plain x (hsaid x hx)
  · exact fun x y hx hy => h.once x y (hsaid x hx) (hsaid y hy)
  · intro gid r x hr
    cases hr
  · intro gid r hr
    cases hr
  · exact h.named
  · intro i c hc
    cases hc
  · intro i t ht
    cases ht

theorem Inv.engineOn (T : Texts E) (h : w.Inv) {random : S.Key} {t : Waiting E B} (ht : w.engine.tasks.get id = some t)
    (hok : w.Stores id (some t)) : (w.engineOn id random).Inv := by
  have hfit := h.tasks id t ht
  cases t with
  | attesting call => exact hfit.elim
  | admitted session call => exact hfit.elim
  | founding a =>
      obtain ⟨gid, name, roster, hc⟩ := hfit
      obtain ⟨tasks, he, htasks⟩ := w.engine.admit_alone id a
      have hresume : w.engine.resume id random = { w.engine with tasks } := by rw [Engine.resume, ht, ← he]
      have hstored : w.engine.stored { w.engine with tasks } = none := by simp [Engine.stored]
      rw [Layer.engineOn, hresume, hstored, ht]
      refine h.retask ?_
      intro i t hi
      obtain ⟨-, hi⟩ | ⟨rfl, cur, rfl⟩ := htasks i t hi
      · exact Or.inl hi
      · exact Or.inr ⟨rfl, Or.inl ⟨gid, name, roster, hc⟩⟩
  | creating a cur call =>
      obtain ⟨rfl, hfit⟩ := hfit
      obtain ⟨hnew, hok⟩ := hok
      have hresume : w.engine.resume id random = w.engine.created id a cur none random := by rw [Engine.resume, ht]
      have hcreated := w.engine.created_cases id a cur random
      rw [Layer.engineOn, hresume, ht]
      generalize w.engine.created id a cur none random = e' at hcreated ⊢
      cases hcreated with
      | threw =>
          have hstored : w.engine.stored (w.engine.done id) = none := by simp [Engine.stored, Engine.done]
          have h' : ({ w with engine := w.engine.done id } : Layer E B).Inv :=
            h.retask fun i t hi => Or.inl (OrdMap.get_delete_some hi).2
          have ht' : (w.engine.done id).tasks.get id = none := OrdMap.get_delete_self ..
          rw [hstored]
          obtain ⟨gid, name, roster, hc⟩ | ⟨gid, roster, hc, -⟩ | ⟨gid, saved, session, rest, hc, -⟩ := hfit
          · rw [hc]
            exact h'.done ht'
          · rw [hc]
            exact h'.done ht'
          · rw [hc]
            exact h'.putQuiet ht' rfl
      | @stored held g hview hsession hepoch hsecret hroster hg _ =>
          have hstored : w.engine.stored { w.engine with
              heap := w.engine.heap ++ [g]
              recs := w.engine.recs.set a.gid.1 held
              installs := (a.gid.1, held) :: w.engine.installs
              tasks := w.engine.tasks.delete id } = some w.engine.heap.length := by
            simp [Engine.stored]
          rw [hstored]
          have hinstall := fun drawn => h.install T id drawn hview hsession hepoch hsecret hroster hg
          obtain ⟨gid, name, roster, hc⟩ | ⟨gid, roster, hc, hr⟩ | ⟨gid, saved, session, rest, hc, hword⟩ := hfit
          · rw [hc] at hok ⊢
            have hun := fun x (hx : w.Said x) => h.unsaid T hok hx
            exact hinstall _ (fun x hx hg => absurd hg (hun x hx)) fun x hx hg => absurd hg (hun x hx)
          · rw [hc]
            obtain ⟨c, hr⟩ := Option.isSome_iff_exists.mp hr
            have hlt : ∀ x, w.Said x → x.gid = E.b64 a.gid.1 → x.epoch < a.epoch :=
              fun x hx hg => (h.latest _ c x hr hx hg).trans_lt (hnew c hr)
            exact hinstall _ (fun x hx hg => (hlt x hx hg).le) fun x hx hg he => absurd he (hlt x hx hg).ne
          · rw [hc] at hok ⊢
            have hsaid : w.Said a.word := .loads hc hword.symm
            have hloads := (h.calls id _ hc).loads a.word hword.symm
            have h' := hinstall (random :: w.drawn) (fun x hx hg => h.latest_loaded T hloads hsaid hnew hok hx hg)
              fun x hx hg he => h.once x _ hx hsaid hg he
            refine h'.put (OrdMap.get_delete_self ..) ?_ ?_
            · exact .loading rfl fun x hx => (h'.calls id _ hc).loads x hx
            · rintro x (hx | hx)
              · cases hx
              · exact .loads hc hx

theorem Inv.create (h : w.Inv) (hid : w.busy id = false) (d : GroupManager.KeyDraws B) (secret : Bytes) (name : Units)
    (memberPubs : List I.Pub) : (w.create id d secret name memberPubs).Inv := by
  have ht := (not_busy hid).1
  unfold Layer.create
  dsimp only
  split
  · exact h
  · rename_i gk gkPub _
    obtain ⟨a, he⟩ := w.engine.createGroup_alone ht gkPub secret
      ((w.rosterOf memberPubs).map fun pub => ⟨pub, none⟩) (some gk)
    rw [he]
    have hput := h.putQuiet ht (c := .creating (E.groupIdFromGK gkPub).1 (Envelope.clampGroupName name)
      (w.rosterOf memberPubs)) rfl
    refine hput.retask ?_
    intro i t hi
    obtain ⟨rfl, rfl⟩ | ⟨-, hi⟩ := OrdMap.get_set_some hi
    · exact Or.inr ⟨_, _, _, OrdMap.get_set_self ..⟩
    · exact Or.inl hi

theorem Inv.setMembers (h : w.Inv) (hid : w.busy id = false) (gid secret : Bytes) (members : List I.Pub) :
    (w.setMembers id gid secret members).Inv := by
  have ht := (not_busy hid).1
  unfold Layer.setMembers
  split
  · exact h
  · split
    · exact h
    · obtain ⟨tasks, he, htasks⟩ := w.engine.rekey_alone ht gid secret
        ((w.rosterOf members).map fun pub => ⟨pub, none⟩)
      dsimp only
      rw [he]
      have hput := h.putQuiet ht (c := .rekeying gid (w.rosterOf members)) rfl
      refine hput.retask ?_
      intro i t hi
      obtain hi | ⟨rfl, r, a, cur, hr, hgid, rfl⟩ := htasks i t hi
      · exact Or.inl hi
      · refine Or.inr ⟨rfl, Or.inr (Or.inl ⟨_, _, OrdMap.get_set_self .., ?_⟩)⟩
        rw [hgid, (h.filed gid r hr).1]
        show (w.engine.recs.get gid).isSome = true
        rw [hr]
        rfl

theorem Inv.act (T : Texts E) (h : w.Inv) (a : LayerAct E B) (hok : w.Minting a) : (w.act K a).Inv := by
  have hidle : ∀ {i : Nat} {w' : Layer E B}, (w.busy i = false → w'.Inv) → (if w.busy i then w else w').Inv := by
    intro i w' h'
    cases hb : w.busy i with
    | true => exact h
    | false => exact h' hb
  cases a with
  | create id d secret name memberPubs => exact hidle fun hb => h.create hb d secret name memberPubs
  | setMembers id gid secret members => exact hidle fun hb => h.setMembers hb gid secret members
  | addMember id gid secret pub =>
      refine hidle fun hb => ?_
      unfold Layer.addMember
      split
      · exact h
      · split
        · exact h
        · exact h.setMembers hb gid secret _
  | removeMember id gid secret pub =>
      refine hidle fun hb => ?_
      unfold Layer.removeMember
      split
      · exact h
      · split
        · exact h
        · split
          · exact h
          · exact h.setMembers hb gid secret _
  | distribute id gid only =>
      exact hidle fun hb => h.leads T (not_busy hb).1 (fun s hs => h.snapshot hs) (leads_hand K w id gid false _)
  | persist id => exact hidle fun hb => h.leads T (not_busy hb).1 (fun s hs => h.snapshot hs) (leads_persist K w id)
  | restore id =>
      refine hidle fun hb => ?_
      split
      · exact h.putQuiet (not_busy hb).1 rfl
      · exact h
  | send id gid pt =>
      refine hidle fun hb => ?_
      unfold Layer.send
      split
      · exact h
      · split
        · exact h
        · exact h.putQuiet (not_busy hb).1 rfl
  | receive session p o opens t t' n header ct => exact h.receive session p o opens t t' n header ct
  | applySkd id from_ skd => exact hok.elim
  | onInvite id from_ skd name => exact hok.elim
  | resume id random reached =>
      rw [Layer.act, Layer.resume]
      cases ht : w.engine.tasks.get id with
      | some t => exact h.engineOn T ht (ht ▸ hok)
      | none =>
          cases hc : w.calls.get id with
          | none => exact h
          | some c => exact h.goOn T ht reached hc
  | stop => exact h.stop

/-- Distributions of one group and epoch say the same in every run whose records are stored only over older epochs, and
whose restored blobs are no older than what was handed out. -/
theorem one_secret (T : Texts E) {me : I.Pub} {base : Bool} (h : Reach (act K) Minting (start me base) w) :
    w.OneSecret := by
  have hinv : w.Inv := h.invariant (inv_start me base) fun w a h hok => h.act T a hok
  intro x hx y hy hgid he
  have hword := hinv.once _ _ (.handed hx) (.handed hy) hgid he
  exact ⟨congrArg Word.secret hword, congrArg Word.roster hword⟩

end Layer

/-! ## An epoch that is minted twice -/

namespace Symbolic

open EncedoChat.Group.Symbolic (Key)

instance : DecidableEq env.Text := inferInstanceAs (DecidableEq Bytes)

def rosterKeys : RosterKeys env scalars := fun gk (p : UInt8) ctx => gk.priv.map fun priv => p :: (priv ++ ctx)

/-- Call `id` goes on `n` times. -/
def goes (id n k : Nat) : List (LayerAct env scalars) := List.replicate n (.resume id (Key.secret k) true)

/-- Admin 1 makes a group with member 2, and it is saved. -/
def founded : List (LayerAct env scalars) := .create 0 ⟨(), [], [9]⟩ [7] [103] [(2 : UInt8)] :: goes 0 8 0

/-- A rekey is handed to member 2 and the process stops before it is saved; the next one is handed to member 3. -/
def remade : List (LayerAct env scalars) :=
  founded ++ .setMembers 0 group [8] [(2 : UInt8)] :: goes 0 4 1 ++ [.stop, .restore 0] ++ goes 0 6 2 ++
    .setMembers 1 group [6] [(3 : UInt8)] :: goes 1 4 3

/-- The same, where the process stops after the rekey was saved. -/
def kept : List (LayerAct env scalars) :=
  founded ++ .setMembers 0 group [8] [(2 : UInt8)] :: goes 0 7 1 ++ [.stop, .restore 0] ++ goes 0 6 2 ++
    .setMembers 1 group [6] [(3 : UInt8)] :: goes 1 4 3

def play (as : List (LayerAct env scalars)) : Layer env scalars :=
  as.foldl (Layer.act rosterKeys) (.start (1 : UInt8) true)

/-- Group, epoch, secret and roster of what was handed out, newest first. -/
def handedOut (w : Layer env scalars) : List (Bytes × Nat × Bytes × List UInt8) :=
  w.handed.map fun h => (h.skd.gid, h.skd.epoch, h.skd.secret, h.skd.roster)

theorem handedOut_one {w : Layer env scalars} (h : w.OneSecret) {p q : Bytes × Nat × Bytes × List UInt8}
    (hp : p ∈ handedOut w) (hq : q ∈ handedOut w) (hgid : p.1 = q.1) (he : p.2.1 = q.2.1) : p.2.2 = q.2.2 := by
  obtain ⟨x, hx, rfl⟩ := List.mem_map.mp hp
  obtain ⟨y, hy, rfl⟩ := List.mem_map.mp hq
  obtain ⟨hsecret, hroster⟩ := h x hx y hy hgid he
  exact Prod.ext hsecret hroster

set_option maxRecDepth 4000 in
/-- Epoch 1 has two secrets and two rosters. -/
theorem remade_two : ∃ w : Layer env scalars,
    Reach (Layer.act rosterKeys) (fun _ a => a.Own) (Layer.start (1 : UInt8) true) w ∧ ¬w.OneSecret := by
  have hadm : Admits (Layer.act rosterKeys) (fun _ a => a.Own) (Layer.start (1 : UInt8) true) remade := by decide
  refine ⟨play remade, hadm.reach .start, ?_⟩
  intro h
  have hfirst : (group, 1, [8], [1, 2]) ∈ handedOut (play remade) := by decide
  have hsecond : (group, 1, [6], [1, 3]) ∈ handedOut (play remade) := by decide
  have hsame := handedOut_one h hfirst hsecond rfl rfl
  revert hsame
  decide

set_option maxRecDepth 4000 in
theorem kept_one : (play kept).OneSecret ∧ (handedOut (play kept)).map (fun p => p.2.1) = [2, 1, 0] := by
  have hadm : Admits (Layer.act rosterKeys) Layer.Minting (Layer.start (1 : UInt8) true) kept := by decide
  exact ⟨Layer.one_secret texts (hadm.reach .start), by decide⟩

end Symbolic

end EncedoChat.Groups
