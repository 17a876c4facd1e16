import EncedoChat.Groups.Origins

/-!
# Calls of a manager that overlap

`createGroup`, `rekey` and `applySkd` of `GroupManager` cut at their awaits. `admit` looks at the record it finds
before the session is created, and stores its own after it.
-/

namespace EncedoChat.Groups

open EncedoChat.Group (Suite Identities Env Session SendChain SenderReceiver Gid SkdFields SkdOutcome SkdError Open Time
  ReceiverOpts)

variable {S : Suite} {I : Identities} {E : Env S I} {B : Backend}

/-- A record, its session as it was created, and which object the session is. -/
structure Held (E : Env S I) (B : Backend) where
  base : GroupRec E B
  session : Nat

/-- A call of `applySkd` that looked at the record `cur`. -/
structure SkdCall (E : Env S I) (B : Backend) where
  from_ : I.Pub
  skd : SkdFields E
  gid : Bytes
  cur : Option (Held E B)

/-- What a call waits for. -/
inductive Waiting (E : Env S I) (B : Backend) where
  /-- hashes and MACs of a distribution; between these awaits nothing shared is touched -/
  | attesting (call : SkdCall E B)
  /-- `groupIdFromGK` of `createGroup` -/
  | founding (a : Admission E B)
  /-- `GroupSession.create` of `admit`, which had found the record `cur` -/
  | creating (a : Admission E B) (cur : Option (Held E B)) (call : Option (SkdCall E B))
  /-- `admit`, which returned this session -/
  | admitted (session : Nat) (call : SkdCall E B)

/-- What a call of `applySkd` returned. -/
structure Returned (E : Env S I) where
  from_ : I.Pub
  skd : SkdFields E
  outcome : Except SkdError SkdOutcome

structure Engine (E : Env S I) (B : Backend) where
  me : I.Pub
  recs : OrdMap Bytes (Held E B)
  /-- every session created -/
  heap : List (GroupSession S I)
  tasks : OrdMap Nat (Waiting E B)
  /-- every record stored, newest first -/
  installs : List (Bytes × Held E B)
  returned : List (Returned E)

inductive EngineAct (E : Env S I) (B : Backend) where
  | createGroup (id : Nat) (gkPub secret : Bytes) (roster : List (Member I B)) (gk : Option (AdminGk B))
  | rekey (id : Nat) (gid secret : Bytes) (newRoster : List (Member I B))
  | applySkd (id : Nat) (from_ : I.Pub) (skd : SkdFields E)
  | resume (id : Nat) (random : S.Key)
  | receive (session : Nat) (p : I.Pub) (o : ReceiverOpts) (opens : Open S) (t t' : Time) (n : Nat) (header ct : Bytes)

namespace Engine

def start (me : I.Pub) : Engine E B := ⟨me, .empty, [], .empty, [], []⟩

def wait (e : Engine E B) (id : Nat) (x : Waiting E B) : Engine E B := { e with tasks := e.tasks.set id x }

def done (e : Engine E B) (id : Nat) : Engine E B := { e with tasks := e.tasks.delete id }

/-- `applySkd` returns, or throws. -/
def report (e : Engine E B) (from_ : I.Pub) (skd : SkdFields E) (outcome : Except SkdError SkdOutcome) : Engine E B :=
  { e with returned := ⟨from_, skd, outcome⟩ :: e.returned }

/-- `admit` returns a session to its caller. -/
def give (e : Engine E B) (id : Nat) (session : Nat) : Option (SkdCall E B) → Engine E B
  | none => e.done id
  | some call => e.wait id (.admitted session call)

/-- `admit` up to its await. -/
def admit_ (e : Engine E B) (id : Nat) (a : Admission E B) (call : Option (SkdCall E B)) : Engine E B :=
  match e.recs.get a.gid.1 with
  | none => e.wait id (.creating a none call)
  | some c =>
    if a.epoch ≤ c.base.epoch then e.give id c.session call
    else e.wait id (.creating a (some c) call)

/-- `admit` once the session is created. -/
def created (e : Engine E B) (id : Nat) (a : Admission E B) (cur : Option (Held E B)) (call : Option (SkdCall E B))
    (random : S.Key) : Engine E B :=
  match GroupSession.create E e.me a.gid a.epoch (a.roster.map Member.pub) random with
  | none =>
    match call with
    | none => e.done id
    | some c => (e.done id).report c.from_ c.skd (.error .malformed)
  | some g =>
    let base : GroupRec E B :=
      ⟨g, a.gkPub, a.secret, a.roster, a.epoch, a.gk.or (cur.bind fun c => c.base.gk), cur.bind fun c => c.base.memberGkKid⟩
    let held : Held E B := ⟨base, e.heap.length⟩
    let e' : Engine E B :=
      { e with
        heap := e.heap ++ [g]
        recs := e.recs.set a.gid.1 held
        installs := (a.gid.1, held) :: e.installs }
    e'.give id e.heap.length call

/-- `session.setSenderKey` with what the distribution carries. -/
def setSenderKey (e : Engine E B) (session : Nat) (call : SkdCall E B) (outcome : SkdOutcome) : Engine E B :=
  match E.unb64 call.skd.chain with
  | none => e.report call.from_ call.skd (.error .malformed)
  | some chain =>
    { e with
      heap := e.heap.modify session fun g =>
        g.setSenderKey call.from_ (E.bytesKey chain) (call.skd.ctr.getD 0) }.report call.from_ call.skd (.ok outcome)

/-- `applySkd` up to its first await. -/
def applySkd (e : Engine E B) (id : Nat) (from_ : I.Pub) (skd : SkdFields E) : Engine E B :=
  match E.unb64 skd.gid with
  | none => e.report from_ skd (.error .malformed)
  | some gid =>
    let cur := e.recs.get gid
    let call : SkdCall E B := ⟨from_, skd, gid, cur⟩
    match cur with
    | none => e.wait id (.attesting call)
    | some c =>
      if c.base.epoch < skd.epoch then e.wait id (.attesting call)
      else if skd.epoch < c.base.epoch then e.report from_ skd (.ok .stale)
      else if from_ ∉ c.base.roster.map Member.pub then e.report from_ skd (.ok .refused)
      else e.setSenderKey c.session call .senderkey

/-- `rekey` up to its await. -/
def rekey (e : Engine E B) (id : Nat) (gid secret : Bytes) (newRoster : List (Member I B)) : Engine E B :=
  match e.recs.get gid with
  | none => e
  | some c =>
    let v := c.base.session.view
    e.admit_ id ⟨⟨v.gid, v.length_gid⟩, c.base.gkPub, E.next c.base.epoch, secret, newRoster, none⟩ none

/-- `applySkd` once the distribution is checked. -/
def attested (e : Engine E B) (id : Nat) (call : SkdCall E B) : Engine E B :=
  match (Group.GroupManager.start e.me).attest call.from_ call.skd call.gid (call.cur.map fun c => c.base.bare) with
  | .error err => (e.done id).report call.from_ call.skd (.error err)
  | .ok a => e.admit_ id ⟨a.gid, a.gkPub, a.epoch, a.secret, a.roster.map fun pub => ⟨pub, none⟩, none⟩ (some call)

/-- A call from one await to the next. -/
def resume (e : Engine E B) (id : Nat) (random : S.Key) : Engine E B :=
  match e.tasks.get id with
  | none => e
  | some (.attesting call) => e.attested id call
  | some (.founding a) => e.admit_ id a none
  | some (.creating a cur call) => e.created id a cur call random
  | some (.admitted session call) =>
    (e.done id).setSenderKey session call (if call.cur.isSome then .rekeyed else .joined)

/-- A call's name is used for one call. -/
def act (e : Engine E B) : EngineAct E B → Engine E B
  | .createGroup id gkPub secret roster gk =>
    if (e.tasks.get id).isSome then e
    else e.wait id (.founding ⟨E.groupIdFromGK gkPub, gkPub, E.zero, secret, roster, gk⟩)
  | .rekey id gid secret newRoster => if (e.tasks.get id).isSome then e else e.rekey id gid secret newRoster
  | .applySkd id from_ skd => if (e.tasks.get id).isSome then e else e.applySkd id from_ skd
  | .resume id random => e.resume id random
  | .receive session p o opens t t' n header ct =>
    { e with heap := e.heap.modify session fun g => g.openAt o p opens t t' n header ct }

end Engine

/-! ## What the calls promise -/

/-- The call took the chain that its distribution carries. -/
def SkdOutcome.took : SkdOutcome → Bool
  | .joined | .rekeyed | .senderkey => true
  | .refused | .stale => false

/-- A session has the chain that a distribution carried, there or further along. -/
def GroupSession.HasChain (g : GroupSession S I) (p : I.Pub) (key : S.Key) (ctr : Nat) : Prop :=
  ∃ r, g.receivers.get p = some r ∧ ctr ≤ r.n ∧ OnChain key r.key (r.n - ctr)

structure Engine.OneSession (e : Engine E B) : Prop where
  once : ∀ x ∈ e.installs, ∀ y ∈ e.installs, x.1 = y.1 → x.2.base.epoch = y.2.base.epoch → x = y
  chains : ∀ r ∈ e.returned, ∀ out gid chain c, r.outcome = .ok out → SkdOutcome.took out = true →
    E.unb64 r.skd.gid = some gid → E.unb64 r.skd.chain = some chain → e.recs.get gid = some c →
    c.base.epoch = r.skd.epoch →
      ∃ g, e.heap[c.session]? = some g ∧ g.HasChain r.from_ (E.bytesKey chain) (r.skd.ctr.getD 0)

/-- A member other than us hands out one chain for each group and epoch. -/
def Told (seed : I.Pub → Bytes → E.Epoch → S.Key) (me from_ : I.Pub) (skd : SkdFields E) : Prop :=
  from_ ≠ me ∧ ∀ gid chain, E.unb64 skd.gid = some gid → E.unb64 skd.chain = some chain →
    OnChain (seed from_ gid skd.epoch) (E.bytesKey chain) (skd.ctr.getD 0)

/-- No distribution is overtaken by a later epoch while it is checked, and a session is stored only over an older
epoch. -/
def Engine.Sound (seed : I.Pub → Bytes → E.Epoch → S.Key) (e : Engine E B) : EngineAct E B → Prop
  | .applySkd _ from_ skd => Told seed e.me from_ skd
  | .resume id _ =>
    match e.tasks.get id with
    | some (.attesting call) => ∀ c, e.recs.get call.gid = some c → c.base.epoch ≤ call.skd.epoch
    | some (.creating a _ _) => ∀ c, e.recs.get a.gid.1 = some c → c.base.epoch < a.epoch
    | _ => True
  | _ => True

/-! ## The invariant of a run -/

/-- The call took a chain for this group. -/
def Returned.Took (r : Returned E) (gid : Bytes) : Prop :=
  ∃ out, r.outcome = .ok out ∧ SkdOutcome.took out = true ∧ E.unb64 r.skd.gid = some gid

/-- The distribution of a call under way. -/
structure SkdCall.Fair (seed : I.Pub → Bytes → E.Epoch → S.Key) (me : I.Pub) (call : SkdCall E B) : Prop where
  told : Told seed me call.from_ call.skd
  gid : E.unb64 call.skd.gid = some call.gid

namespace Engine

variable {seed : I.Pub → Bytes → E.Epoch → S.Key} {e : Engine E B} {id : Nat}

def WaitsWell (seed : I.Pub → Bytes → E.Epoch → S.Key) (e : Engine E B) : Waiting E B → Prop
  | .attesting call => call.Fair seed e.me
  | .founding _ => True
  | .creating a _ call => ∀ c, call = some c → c.Fair seed e.me ∧ a.gid.1 = c.gid ∧ a.epoch = c.skd.epoch
  | .admitted session call => call.Fair seed e.me ∧
      ∃ x ∈ e.installs, x.1 = call.gid ∧ x.2.session = session ∧ x.2.base.epoch = call.skd.epoch

/-- A session that was stored: every receiver is on its member's chain, and no chain taken is missing. -/
def Keeps (seed : I.Pub → Bytes → E.Epoch → S.Key) (e : Engine E B) (x : Bytes × Held E B)
    (g : GroupSession S I) : Prop :=
  g.view.me = e.me ∧ (∀ p r, g.receivers.get p = some r → OnChain (seed p x.1 x.2.base.epoch) r.key r.n) ∧
    ∀ r ∈ e.returned, r.Took x.1 → r.skd.epoch = x.2.base.epoch →
      ∃ rc, g.receivers.get r.from_ = some rc ∧ r.skd.ctr.getD 0 ≤ rc.n

structure Inv (seed : I.Pub → Bytes → E.Epoch → S.Key) (e : Engine E B) : Prop where
  held : ∀ gid c, e.recs.get gid = some c → (gid, c) ∈ e.installs
  latest : ∀ x ∈ e.installs, ∃ c, e.recs.get x.1 = some c ∧ x.2.base.epoch ≤ c.base.epoch
  once : ∀ x ∈ e.installs, ∀ y ∈ e.installs, x.1 = y.1 → x.2.base.epoch = y.2.base.epoch → x = y
  apart : ∀ x ∈ e.installs, ∀ y ∈ e.installs, x.2.session = y.2.session → x = y
  kept : ∀ x ∈ e.installs, ∃ g, e.heap[x.2.session]? = some g ∧ e.Keeps seed x g
  told : ∀ r ∈ e.returned, Told seed e.me r.from_ r.skd
  stored : ∀ r ∈ e.returned, ∀ gid, r.Took gid → ∃ x ∈ e.installs, x.1 = gid ∧ x.2.base.epoch = r.skd.epoch
  waits : ∀ i t, e.tasks.get i = some t → e.WaitsWell seed t

theorem inv_start (me : I.Pub) : (start me : Engine E B).Inv seed := by
  constructor <;> intros <;> contradiction

theorem Inv.wait (h : e.Inv seed) {t : Waiting E B} (ht : e.WaitsWell seed t) : (e.wait id t).Inv seed where
  held := h.held
  latest := h.latest
  once := h.once
  apart := h.apart
  kept := h.kept
  told := h.told
  stored := h.stored
  waits i t' hi := by
    obtain ⟨-, rfl⟩ | ⟨-, hi⟩ := OrdMap.get_set_some hi
    · exact ht
    · exact h.waits i t' hi

theorem Inv.done (h : e.Inv seed) : (e.done id).Inv seed where
  held := h.held
  latest := h.latest
  once := h.once
  apart := h.apart
  kept := h.kept
  told := h.told
  stored := h.stored
  waits i t hi := h.waits i t (OrdMap.get_delete_some hi).2

/-- A call that took nothing returns. -/
theorem Inv.report (h : e.Inv seed) {from_ : I.Pub} {skd : SkdFields E} {outcome : Except SkdError SkdOutcome}
    (ht : Told seed e.me from_ skd) (hout : ∀ out, outcome = .ok out → SkdOutcome.took out = false) :
    (e.report from_ skd outcome).Inv seed := by
  have hnot : ∀ gid, ¬(⟨from_, skd, outcome⟩ : Returned E).Took gid := by
    rintro gid ⟨out, ho, htook, -⟩
    rw [hout out ho] at htook
    cases htook
  constructor
  · exact h.held
  · exact h.latest
  · exact h.once
  · exact h.apart
  · intro x hx
    obtain ⟨g, hg, hme, hon, hret⟩ := h.kept x hx
    refine ⟨g, hg, hme, hon, ?_⟩
    intro r hr htook
    obtain rfl | hr := List.mem_cons.mp hr
    · exact absurd htook (hnot _)
    · exact hret r hr htook
  · exact List.forall_mem_cons.mpr ⟨ht, h.told⟩
  · refine List.forall_mem_cons.mpr ⟨?_, h.stored⟩
    intro gid htook
    exact absurd htook (hnot gid)
  · exact h.waits

theorem Inv.give (h : e.Inv seed) {session : Nat} {call : Option (SkdCall E B)}
    (hc : ∀ c, call = some c → c.Fair seed e.me ∧
      ∃ x ∈ e.installs, x.1 = c.gid ∧ x.2.session = session ∧ x.2.base.epoch = c.skd.epoch) :
    (e.give id session call).Inv seed := by
  cases call with
  | none => exact h.done
  | some c => exact h.wait (hc c rfl)

theorem Inv.admit_ (h : e.Inv seed) {a : Admission E B} {call : Option (SkdCall E B)}
    (hc : ∀ c, call = some c → c.Fair seed e.me ∧ a.gid.1 = c.gid ∧ a.epoch = c.skd.epoch)
    (hle : ∀ c, call = some c → ∀ held, e.recs.get a.gid.1 = some held → held.base.epoch ≤ a.epoch) :
    (e.admit_ id a call).Inv seed := by
  unfold Engine.admit_
  cases hcur : e.recs.get a.gid.1 with
  | none => exact h.wait hc
  | some held =>
      dsimp only
      split
      · rename_i hge
        apply h.give
        intro c hcall
        obtain ⟨hfair, hgid, hepoch⟩ := hc c hcall
        refine ⟨hfair, (a.gid.1, held), h.held _ _ hcur, hgid, rfl, ?_⟩
        exact (le_antisymm (hle c hcall held hcur) hge).trans hepoch
      · exact h.wait hc

theorem Inv.created (h : e.Inv seed) {a : Admission E B} {cur : Option (Held E B)} {call : Option (SkdCall E B)}
    (hc : ∀ c, call = some c → c.Fair seed e.me ∧ a.gid.1 = c.gid ∧ a.epoch = c.skd.epoch)
    (hnew : ∀ c, e.recs.get a.gid.1 = some c → c.base.epoch < a.epoch) (random : S.Key) :
    (e.created id a cur call random).Inv seed := by
  unfold Engine.created
  cases hg : GroupSession.create E e.me a.gid a.epoch (a.roster.map Member.pub) random with
  | none =>
      cases call with
      | none => exact h.done
      | some c =>
          refine h.done.report (hc c rfl).1.told ?_
          intro out ho
          cases ho
  | some g =>
      dsimp only
      generalize hheld : (⟨⟨g, a.gkPub, a.secret, a.roster, a.epoch, a.gk.or (cur.bind fun c => c.base.gk),
        cur.bind fun c => c.base.memberGkKid⟩, e.heap.length⟩ : Held E B) = held
      have hepoch : held.base.epoch = a.epoch := by rw [← hheld]
      have hsession : held.session = e.heap.length := by rw [← hheld]
      -- whatever was stored for the group before is of an older epoch
      have hold : ∀ x ∈ e.installs, x.1 = a.gid.1 → x.2.base.epoch < held.base.epoch := by
        intro x hx hgid
        obtain ⟨c, hcur, hle⟩ := h.latest x hx
        rw [hepoch]
        exact hle.trans_lt (hnew c (hgid ▸ hcur))
      have hlt : ∀ x ∈ e.installs, x.2.session < e.heap.length := by
        intro x hx
        obtain ⟨g', hg', -⟩ := h.kept x hx
        exact (List.getElem?_eq_some_iff.mp hg').1
      have hfresh : g.view.me = e.me ∧ g.receivers = .empty := by
        unfold GroupSession.create at hg
        split at hg
        · cases hg
          exact ⟨rfl, rfl⟩
        · cases hg
      apply Inv.give
      · constructor
        · intro gid c hcur
          obtain ⟨rfl, rfl⟩ | ⟨-, hcur⟩ := OrdMap.get_set_some hcur
          · exact List.mem_cons_self ..
          · exact List.mem_cons_of_mem _ (h.held gid c hcur)
        · refine List.forall_mem_cons.mpr ⟨⟨held, OrdMap.get_set_self .., le_rfl⟩, ?_⟩
          intro x hx
          by_cases hgid : x.1 = a.gid.1
          · exact ⟨held, by rw [hgid]; exact OrdMap.get_set_self .., (hold x hx hgid).le⟩
          · obtain ⟨c, hcur, hle⟩ := h.latest x hx
            exact ⟨c, (OrdMap.get_set_ne _ _ hgid).trans hcur, hle⟩
        · intro x hx y hy hgid he
          obtain rfl | hx := List.mem_cons.mp hx <;> obtain rfl | hy := List.mem_cons.mp hy
          · rfl
          · exact absurd he (hold y hy hgid.symm).ne'
          · exact absurd he (hold x hx hgid).ne
          · exact h.once x hx y hy hgid he
        · intro x hx y hy hs
          obtain rfl | hx := List.mem_cons.mp hx <;> obtain rfl | hy := List.mem_cons.mp hy
          · rfl
          · exact absurd (hs.symm.trans hsession) (hlt y hy).ne
          · exact absurd (hs.trans hsession) (hlt x hx).ne
          · exact h.apart x hx y hy hs
        · refine List.forall_mem_cons.mpr ⟨⟨g, ?_, hfresh.1, ?_, ?_⟩, ?_⟩
          · rw [hsession]
            exact List.getElem?_concat_length ..
          · intro p r hr
            rw [hfresh.2] at hr
            cases hr
          · intro r hr htook he
            obtain ⟨x, hx, hgid, he'⟩ := h.stored r hr _ htook
            exact absurd (he'.trans he) (hold x hx hgid).ne
          · intro x hx
            obtain ⟨g', hg', hk⟩ := h.kept x hx
            exact ⟨g', (List.getElem?_append_left (hlt x hx)).trans hg', hk⟩
        · exact h.told
        · intro r hr gid htook
          obtain ⟨x, hx, hxs⟩ := h.stored r hr gid htook
          exact ⟨x, List.mem_cons_of_mem _ hx, hxs⟩
        · intro i t hi
          have ht := h.waits i t hi
          cases t with
          | admitted session call =>
              obtain ⟨hf, x, hx, hxs⟩ := ht
              exact ⟨hf, x, List.mem_cons_of_mem _ hx, hxs⟩
          | _ => exact ht
      · intro c hcall
        obtain ⟨hfair, hgid, he⟩ := hc c hcall
        exact ⟨hfair, _, List.mem_cons_self .., hgid, hsession, hepoch.trans he⟩

/-- The session `x` names is changed by `f`; every other session stays. -/
theorem kept_modify (h : e.Inv seed) {x : Bytes × Held E B} (hx : x ∈ e.installs)
    {f : GroupSession S I → GroupSession S I} {returned : List (Returned E)}
    (hf : ∀ g, e.Keeps seed x g → Keeps seed { e with returned := returned } x (f g))
    (hother : ∀ y g, y ∈ e.installs → y ≠ x → e.Keeps seed y g → Keeps seed { e with returned := returned } y g) :
    ∀ y ∈ e.installs, ∃ g, (e.heap.modify x.2.session f)[y.2.session]? = some g ∧
      Keeps seed { e with returned := returned } y g := by
  intro y hy
  obtain ⟨g, hg, hk⟩ := h.kept y hy
  rw [List.getElem?_modify, hg]
  by_cases hs : x.2.session = y.2.session
  · obtain rfl := h.apart x hx y hy hs
    exact ⟨f g, by simp, hf g hk⟩
  · refine ⟨g, by simp [hs], hother y g hy ?_ hk⟩
    rintro rfl
    exact hs rfl

theorem setSenderKey_cases (g : GroupSession S I) {p : I.Pub} (key : S.Key) (ctr : Nat) (hp : p ≠ g.view.me) :
    (∃ r, g.receivers.get p = some r ∧ ctr < r.n ∧ g.setSenderKey p key ctr = g) ∨
    (∀ r, g.receivers.get p = some r → r.n ≤ ctr) ∧
      g.setSenderKey p key ctr = { g with receivers := g.receivers.set p (.make key ctr) } := by
  unfold GroupSession.setSenderKey
  rw [if_neg hp]
  split
  · rename_i hany
    obtain ⟨r, hr, hlt⟩ := (Option.any_eq_true _ _).mp hany
    exact Or.inl ⟨r, hr, of_decide_eq_true hlt, rfl⟩
  · rename_i hany
    refine Or.inr ⟨?_, rfl⟩
    intro r hr
    by_contra hlt
    exact hany ((Option.any_eq_true _ _).mpr ⟨r, hr, decide_eq_true (Nat.not_le.mp hlt)⟩)

theorem Inv.setSenderKey (h : e.Inv seed) {call : SkdCall E B} (hfair : call.Fair seed e.me) {x : Bytes × Held E B}
    (hx : x ∈ e.installs) (hgid : x.1 = call.gid) (hepoch : x.2.base.epoch = call.skd.epoch) (outcome : SkdOutcome) :
    (e.setSenderKey x.2.session call outcome).Inv seed := by
  unfold Engine.setSenderKey
  cases hchain : E.unb64 call.skd.chain with
  | none =>
      apply h.report hfair.told
      intro out ho
      cases ho
  | some chain =>
      have hon := hfair.told.2 _ _ hfair.gid hchain
      constructor
      · exact h.held
      · exact h.latest
      · exact h.once
      · exact h.apart
      · apply kept_modify h hx
        · rintro g ⟨hme, hchains, hret⟩
          obtain ⟨rc, hrc, hlt, he⟩ | ⟨hge, he⟩ :=
            setSenderKey_cases g (E.bytesKey chain) (call.skd.ctr.getD 0) (hme ▸ hfair.told.1) <;> rw [he]
          · refine ⟨hme, hchains, List.forall_mem_cons.mpr ⟨?_, hret⟩⟩
            intro _ _
            exact ⟨rc, hrc, hlt.le⟩
          · refine ⟨hme, ?_, List.forall_mem_cons.mpr ⟨?_, ?_⟩⟩
            · intro p r hr
              obtain ⟨rfl, rfl⟩ | ⟨-, hr⟩ := OrdMap.get_set_some hr
              · rw [hgid, hepoch]
                exact hon
              · exact hchains p r hr
            · intro _ _
              exact ⟨_, OrdMap.get_set_self .., Nat.le_refl _⟩
            · intro r hr htook hre
              obtain ⟨rc, hrc, hle⟩ := hret r hr htook hre
              by_cases hp : r.from_ = call.from_
              · rw [hp] at hrc ⊢
                exact ⟨_, OrdMap.get_set_self .., hle.trans (hge rc hrc)⟩
              · exact ⟨rc, (OrdMap.get_set_ne _ _ hp).trans hrc, hle⟩
        · rintro y g hy hne ⟨hme, hchains, hret⟩
          refine ⟨hme, hchains, List.forall_mem_cons.mpr ⟨?_, hret⟩⟩
          -- the call was for the group and epoch of `x`
          rintro ⟨out, -, -, hg⟩ he
          refine absurd (h.once y hy x hx ?_ ?_) hne
          · exact (Option.some.inj (hfair.gid.symm.trans hg)).symm.trans hgid.symm
          · exact he.symm.trans hepoch.symm
      · exact List.forall_mem_cons.mpr ⟨hfair.told, h.told⟩
      · refine List.forall_mem_cons.mpr ⟨?_, h.stored⟩
        rintro gid ⟨out, -, -, hg⟩
        exact ⟨x, hx, hgid.trans (Option.some.inj (hfair.gid.symm.trans hg)), hepoch⟩
      · exact h.waits

theorem Inv.receive (h : e.Inv seed) (session : Nat) (p : I.Pub) (o : ReceiverOpts) (opens : Open S) (t t' : Time)
    (n : Nat) (header ct : Bytes) : (e.act (.receive session p o opens t t' n header ct)).Inv seed := by
  constructor
  · exact h.held
  · exact h.latest
  · exact h.once
  · exact h.apart
  · intro y hy
    obtain ⟨g, hg, hme, hchains, hret⟩ := h.kept y hy
    rw [Engine.act, List.getElem?_modify, hg]
    by_cases hs : session = y.2.session
    · refine ⟨g.openAt o p opens t t' n header ct, by simp [hs], ?_⟩
      unfold GroupSession.openAt
      cases hr : g.receivers.get p with
      | none => exact ⟨hme, hchains, hret⟩
      | some r =>
          obtain ⟨d, hn, hkey⟩ := SenderReceiver.openAt_moves o opens r t t' n header ct
          refine ⟨hme, ?_, ?_⟩
          · intro q rc hq
            obtain ⟨rfl, rfl⟩ | ⟨-, hq⟩ := OrdMap.get_set_some hq
            · have hc := hchains q r hr
              rw [OnChain] at hc ⊢
              rw [hkey, hn, hc, KeyChain.chainAt_add]
            · exact hchains q rc hq
          · intro q hq htook hre
            obtain ⟨rc, hrc, hle⟩ := hret q hq htook hre
            by_cases hp : q.from_ = p
            · rw [hp] at hrc ⊢
              rw [hr] at hrc
              cases hrc
              exact ⟨_, OrdMap.get_set_self .., by omega⟩
            · exact ⟨rc, (OrdMap.get_set_ne _ _ hp).trans hrc, hle⟩
    · exact ⟨g, by simp [hs], hme, hchains, hret⟩
  · exact h.told
  · exact h.stored
  · exact h.waits

/-! ## Calls -/

theorem Inv.applySkd (h : e.Inv seed) {from_ : I.Pub} {skd : SkdFields E} (ht : Told seed e.me from_ skd) :
    (e.applySkd id from_ skd).Inv seed := by
  have hquiet : ∀ outcome : SkdOutcome, SkdOutcome.took outcome = false →
      (e.report from_ skd (.ok outcome)).Inv seed := by
    intro outcome hnot
    apply h.report ht
    intro out ho
    cases ho
    exact hnot
  unfold Engine.applySkd
  cases hgid : E.unb64 skd.gid with
  | none =>
      apply h.report ht
      intro out ho
      cases ho
  | some gid =>
      dsimp only
      have hfair : ∀ cur, SkdCall.Fair seed e.me (⟨from_, skd, gid, cur⟩ : SkdCall E B) := fun _ => ⟨ht, hgid⟩
      cases hcur : e.recs.get gid with
      | none => exact h.wait (hfair _)
      | some c =>
          dsimp only
          split
          · exact h.wait (hfair _)
          · rename_i hlt
            split
            · exact hquiet _ rfl
            · rename_i hgt
              split
              · exact hquiet _ rfl
              · have he := le_antisymm (not_lt.mp hlt) (not_lt.mp hgt)
                exact h.setSenderKey (hfair _) (h.held gid c hcur) rfl he.symm _

theorem Inv.act (h : e.Inv seed) (a : EngineAct E B) (hok : e.Sound seed a) : (e.act a).Inv seed := by
  cases a with
  | createGroup id gkPub secret roster gk =>
      rw [Engine.act]
      split
      · exact h
      · exact h.wait trivial
  | rekey id gid secret newRoster =>
      rw [Engine.act]
      split
      · exact h
      · unfold Engine.rekey
        split
        · exact h
        · exact h.admit_ (fun c hc => by cases hc) (fun c hc => by cases hc)
  | applySkd id from_ skd =>
      rw [Engine.act]
      split
      · exact h
      · exact h.applySkd hok
  | resume id random =>
      rw [Engine.act]
      unfold Engine.resume
      rw [Engine.Sound] at hok
      cases ht : e.tasks.get id with
      | none => exact h
      | some t =>
          have hw := h.waits id t ht
          rw [ht] at hok
          cases t with
          | attesting call =>
              have hfair : call.Fair seed e.me := hw
              dsimp only
              unfold Engine.attested
              split
              · refine h.done.report hfair.told ?_
                intro out ho
                cases ho
              · rename_i a ha
                have hc := Group.GroupManager.attest_ok ha
                apply h.admit_
                · intro c hcall
                  cases hcall
                  exact ⟨hfair, hc.group, hc.epoch⟩
                · intro c _ held hheld
                  exact (hok held (hc.group ▸ hheld)).trans_eq hc.epoch.symm
          | founding a => exact h.admit_ (fun c hc => by cases hc) (fun c hc => by cases hc)
          | creating a cur call => exact h.created hw hok random
          | admitted session call =>
              obtain ⟨hfair, x, hx, hgid, rfl, hepoch⟩ := hw
              exact h.done.setSenderKey hfair hx hgid hepoch _
  | receive session p o opens t t' n header ct => exact h.receive ..

theorem Inv.reach {me : I.Pub} (h : Reach Engine.act (Engine.Sound seed) (Engine.start me) e) : e.Inv seed :=
  h.invariant (inv_start me) fun _ a h hok => h.act a hok

theorem Inv.oneSession (h : e.Inv seed) : e.OneSession := by
  refine ⟨h.once, ?_⟩
  intro r hr out gid chain c hout htook hgid hchain hc hepoch
  obtain ⟨g, hg, -, hchains, hret⟩ := h.kept _ (h.held gid c hc)
  obtain ⟨rc, hrc, hle⟩ := hret r hr ⟨out, hout, htook, hgid⟩ hepoch.symm
  have hkey := hchains _ _ hrc
  have htold := (h.told r hr).2 gid chain hgid hchain
  refine ⟨g, hg, rc, hrc, hle, ?_⟩
  rw [OnChain] at hkey htold ⊢
  rw [htold, KeyChain.chainAt_add, Nat.add_sub_cancel' hle, hkey, hepoch]

/-! ## Records stored stay on record -/

theorem installs_give (e : Engine E B) (id session : Nat) (call : Option (SkdCall E B)) :
    (e.give id session call).installs = e.installs := by
  cases call <;> rfl

theorem installs_admit_ (e : Engine E B) (id : Nat) (a : Admission E B) (call : Option (SkdCall E B)) :
    (e.admit_ id a call).installs = e.installs := by
  unfold Engine.admit_
  split
  · rfl
  · split
    · exact installs_give ..
    · rfl

theorem installs_setSenderKey (e : Engine E B) (session : Nat) (call : SkdCall E B) (outcome : SkdOutcome) :
    (e.setSenderKey session call outcome).installs = e.installs := by
  unfold Engine.setSenderKey
  split <;> rfl

theorem installs_applySkd (e : Engine E B) (id : Nat) (from_ : I.Pub) (skd : SkdFields E) :
    (e.applySkd id from_ skd).installs = e.installs := by
  unfold Engine.applySkd
  split
  · rfl
  · dsimp only
    split
    · rfl
    · split
      · rfl
      · split
        · rfl
        · split
          · rfl
          · exact installs_setSenderKey ..

theorem mem_installs_resume (random : S.Key) {x : Bytes × Held E B} (hx : x ∈ e.installs) :
    x ∈ (e.resume id random).installs := by
  unfold Engine.resume
  split
  · exact hx
  · unfold Engine.attested
    split
    · exact hx
    · rw [installs_admit_]
      exact hx
  · rw [installs_admit_]
    exact hx
  · unfold Engine.created
    split
    · split <;> exact hx
    · rw [installs_give]
      exact List.mem_cons_of_mem _ hx
  · rw [installs_setSenderKey]
    exact hx

theorem mem_installs_act (a : EngineAct E B) {x : Bytes × Held E B} (hx : x ∈ e.installs) :
    x ∈ (e.act a).installs := by
  cases a with
  | createGroup id gkPub secret roster gk =>
      rw [Engine.act]
      split <;> exact hx
  | rekey id gid secret newRoster =>
      rw [Engine.act]
      split
      · exact hx
      · unfold Engine.rekey
        split
        · exact hx
        · rw [installs_admit_]
          exact hx
  | applySkd id from_ skd =>
      rw [Engine.act]
      split
      · exact hx
      · rw [installs_applySkd]
        exact hx
  | resume id random => exact mem_installs_resume random hx
  | receive session p o opens t t' n header ct => exact hx

/-- As long as no session is stored over its own epoch or a later one and no distribution is overtaken, a group has
one session, secret and roster for each epoch, its epoch never goes back, and no chain taken for it is lost. -/
theorem one_session {me : I.Pub} {e' : Engine E B} (he : Reach act (Sound seed) (start me) e)
    (he' : Reach act (Sound seed) e e') :
    e'.OneSession ∧ ∀ gid c, e.recs.get gid = some c →
      ∃ c', e'.recs.get gid = some c' ∧ c.base.epoch ≤ c'.base.epoch := by
  have h := Inv.reach he
  have h' := Inv.reach (he.trans he')
  refine ⟨h'.oneSession, ?_⟩
  intro gid c hc
  have hmem : (gid, c) ∈ e'.installs := by
    apply he'.invariant (I := fun e' => (gid, c) ∈ e'.installs) (h.held gid c hc)
    intro e a hx _
    exact mem_installs_act a hx
  exact h'.latest _ hmem

end Engine

/-! ## Copies that cross -/

namespace Symbolic

open EncedoChat.Group.Symbolic (Key)

/-- The chain of admin 1 at each epoch. -/
def seed (_ : UInt8) (_ : Bytes) (epoch : Nat) : Key := .secret (10 + epoch)

/-- Two copies of one distribution are checked side by side; the first is done before the second creates its
session. -/
def crossed : Engine env scalars :=
  ((((((((Engine.start (2 : UInt8)).act (.applySkd 0 (1 : UInt8) (skd 0))).act (.applySkd 1 (1 : UInt8) (skd 0))).act
    (.resume 0 (Key.secret 0))).act (.resume 1 (Key.secret 1))).act (.resume 0 (Key.secret 0))).act
      (.resume 0 (Key.secret 0))).act (.resume 1 (Key.secret 1)))

/-- The second session takes the place of the first, and the admin's chain is lost with it. -/
theorem crossed_lost : ¬crossed.OneSession ∧ crossed.returned.length = 1 ∧
    ((crossed.recs.get group).bind fun c => (crossed.heap[c.session]?).map fun g => g.receivers.size) = some 0 := by
  refine ⟨?_, by decide, by decide⟩
  intro h
  have hinst : crossed.installs.map (fun x => (x.1, (x.2.base.epoch : Nat), x.2.session)) =
      [(group, 0, 1), (group, 0, 0)] := by decide
  obtain ⟨x, rest, hx, hxs, hrest⟩ := List.map_eq_cons_iff.mp hinst
  obtain ⟨y, rest, rfl, hys, -⟩ := List.map_eq_cons_iff.mp hrest
  obtain ⟨hxg, hxs⟩ := Prod.mk.inj hxs
  obtain ⟨hxe, hxs⟩ := Prod.mk.inj hxs
  obtain ⟨hyg, hys⟩ := Prod.mk.inj hys
  obtain ⟨hye, hys⟩ := Prod.mk.inj hys
  have hxy := h.once x (by simp [hx]) y (by simp [hx]) (hxg.trans hyg.symm) (hxe.trans hye.symm)
  rw [hxy, hys] at hxs
  exact absurd hxs Nat.zero_ne_one

/-- One copy, and a second one after it. -/
def joined : Engine env scalars :=
  ((((Engine.start (2 : UInt8)).act (.applySkd 0 (1 : UInt8) (skd 0))).act (.resume 0 (Key.secret 0))).act
    (.resume 0 (Key.secret 0))).act (.resume 0 (Key.secret 0))

def repeated : Engine env scalars := joined.act (.applySkd 1 (1 : UInt8) (skd 0))

theorem told_skd : Told (E := env) seed (2 : UInt8) (1 : UInt8) (skd 0) := by
  have hne : (1 : UInt8) ≠ 2 := by decide
  refine ⟨hne, ?_⟩
  intro gid chain _ hchain
  cases hchain
  rfl

theorem reach_joined : Reach Engine.act (Engine.Sound seed) (Engine.start (2 : UInt8)) joined := by
  refine .step _ (.step _ (.step _ (.step _ .start told_skd) ?_) ?_) trivial
  · intro c h
    cases h
  · intro c h
    cases h

theorem repeated_one : (repeated.OneSession ∧ ∀ gid c, joined.recs.get gid = some c →
    ∃ c', repeated.recs.get gid = some c' ∧ c.base.epoch ≤ c'.base.epoch) ∧ joined.installs.length = 1 :=
  ⟨Engine.one_session reach_joined (.step _ .start told_skd), by decide⟩

end Symbolic

end EncedoChat.Groups
