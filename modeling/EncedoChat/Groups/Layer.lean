import Mathlib.Data.List.Sort
import EncedoChat.Envelope.Codec
import EncedoChat.Group.Send
import EncedoChat.Groups.Overlap

/-!
# The groups of a terminal

`Groups` of `cli/groups.ts` over the manager's calls: what it keeps of each group, its calls cut at their awaits, the
sends of its rooms, the store they write, and the process that may stop at any moment. Sealing a blob and naming it
change nothing in it and are left out; what is owed to a member decides only when `distribute` is called, and it may be
called at any time here.
-/

namespace EncedoChat.Groups

open EncedoChat.Group (Suite Identities Env Session SendChain Gid SkdFields SkdError Open Time ReceiverOpts aeadBox
  encodeHeader encodeFrame macCtx rosterMac)

variable {S : Suite} {I : Identities} {E : Env S I} {B : Backend}

/-- rk_i derived with the admin's key; `none` where that throws. -/
abbrev RosterKeys (E : Env S I) (B : Backend) := AdminGk B → I.Pub → Bytes → Option E.RosterKey

/-- What the layer shows of a group; `room` is the session its room was opened on. -/
structure GroupInfo (E : Env S I) where
  name : Units
  epoch : E.Epoch
  members : List I.Pub
  room : Option Nat

/-- A group's blob in the store. -/
structure Saved (E : Env S I) (B : Backend) where
  snap : GroupSnapshot E B
  name : Units

structure Store (E : Env S I) (B : Backend) where
  blobs : OrdMap Bytes (Saved E B)
  /-- `names.groups` -/
  groups : List Bytes

/-- The chain object a call of `send` seals with: a session's, or one that `importChains` has put another in place of. -/
inductive ChainRef where
  | current (session : Nat)
  | replaced (i : Nat)
  deriving DecidableEq

/-- What a call of `send` waits for. A box is the ciphertext with what it was made of. -/
inductive Sealing (S : Suite) where
  | keyed (header pt : Bytes) (key : S.Key)
  | encrypting (b : Box S.Key S.Nonce)
  | stepping (b : Box S.Key S.Nonce) (next : S.Key)
  | tagging (b : Box S.Key S.Nonce)

/-- What goes on once a room is open. -/
inductive Opened where
  /-- the keys are handed out, then the state is saved -/
  | distribute
  | persist
  /-- `restore` goes on to these groups -/
  | restore (rest : List Bytes)

/-- What a call of the layer waits for. -/
inductive Call (E : Env S I) (B : Backend) where
  /-- `createGroupWithNewKey` -/
  | creating (gid : Bytes) (name : Units) (roster : List I.Pub)
  /-- `rekey` -/
  | rekeying (gid : Bytes) (roster : List I.Pub)
  /-- `openGroup` -/
  | opening (gid : Bytes) (session : Nat) (next : Opened)
  /-- `skdFor` and `conv` for a member; `todo` come after it -/
  | handing (gid : Bytes) (m : I.Pub) (skd : Option (SkdFields E)) (todo : List I.Pub) (save : Bool)
  /-- `sealCache` and `scoped` of a snapshot -/
  | sealing (gid : Bytes) (saved : Saved E B) (rest : List (GroupSnapshot E B))
  /-- `names.groups`, then `sealLocal` of `setGroups` -/
  | listing (stored : List Bytes)
  | indexing (list : List Bytes)
  /-- `restore`: the name of the first blob, `openCache`, `groups.restore` once `admit` has a session -/
  | reading (gids : List Bytes)
  | unsealing (saved : Saved E B) (rest : List Bytes)
  | restoring (gid : Bytes) (saved : Saved E B) (session : Option Nat) (rest : List Bytes)
  /-- `session.send`, then the publishing of its frame -/
  | sending (on : ChainRef) (view : Session I) (s : Sealing S)
  | publishing

/-- A sender key as a member was handed it. -/
structure Handed (E : Env S I) where
  member : I.Pub
  skd : SkdFields E
  name : Units

inductive Event (S : Suite) where
  | sealed (b : Box S.Key S.Nonce)
  | published (frame : Bytes) (b : Box S.Key S.Nonce)

structure Layer (E : Env S I) (B : Backend) where
  engine : Engine E B
  infos : OrdMap Bytes (GroupInfo E)
  calls : OrdMap Nat (Call E B)
  /-- chain objects no session has any more -/
  replaced : List (SendChain S)
  /-- There is a key for the store. -/
  base : Bool
  store : Store E B
  /-- every distribution handed out, newest first -/
  handed : List (Handed E)
  /-- seals and publishings, newest first -/
  log : List (Event S)
  /-- the first keys of the sending chains drawn -/
  drawn : List S.Key

inductive LayerAct (E : Env S I) (B : Backend) where
  | create (id : Nat) (d : GroupManager.KeyDraws B) (secret : Bytes) (name : Units) (memberPubs : List I.Pub)
  | setMembers (id : Nat) (gid secret : Bytes) (members : List I.Pub)
  | addMember (id : Nat) (gid secret : Bytes) (pub : I.Pub)
  | removeMember (id : Nat) (gid secret : Bytes) (pub : I.Pub)
  | distribute (id : Nat) (gid : Bytes) (only : Option I.Pub)
  | persist (id : Nat)
  | restore (id : Nat)
  | send (id : Nat) (gid pt : Bytes)
  | receive (session : Nat) (p : I.Pub) (o : ReceiverOpts) (opens : Open S) (t t' : Time) (n : Nat) (header ct : Bytes)
  | applySkd (id : Nat) (from_ : I.Pub) (skd : SkdFields E)
  /-- Core calls it for a distribution that `applySkd` took; here it may come at any time. -/
  | onInvite (id : Nat) (from_ : I.Pub) (skd : SkdFields E) (name : Option Units)
  /-- `reached`: the member is a contact. -/
  | resume (id : Nat) (random : S.Key) (reached : Bool)
  /-- The process stops, and starts again on the store. -/
  | stop

/-! ## What is read of the engine -/

namespace Engine

/-- A record with its session as it is now. -/
def current (e : Engine E B) (c : Held E B) : GroupRec E B :=
  { c.base with session := (e.heap[c.session]?).getD c.base.session }

def snapshot (e : Engine E B) : List (GroupSnapshot E B) := e.recs.entries.map fun x => (e.current x.2).snapshot

def roster (e : Engine E B) (gid : Bytes) : List I.Pub :=
  ((e.recs.get gid).map fun c => c.base.roster.map Member.pub).getD []

/-- The distribution for a member of the roster; `none` for anybody else. -/
def skdFor (K : RosterKeys E B) (e : Engine E B) (gid : Bytes) (forPub : I.Pub) :
    Except SkdError (Option (SkdFields E)) :=
  match e.recs.get gid with
  | none => .ok none
  | some c =>
    let r := e.current c
    if forPub ∉ r.roster.map Member.pub then .ok none
    else
      let skd : SkdFields E :=
        { gid := E.b64 r.session.view.gid
          gkPub := E.b64 r.gkPub
          epoch := r.epoch
          secret := E.b64 r.secret
          chain := E.b64 (E.keyBytes r.session.send_.key)
          ctr := some r.session.send_.n
          roster := r.roster.map Member.pub
          rmac := none }
      match r.gk with
      | none => .ok (some skd)
      | some gk =>
        match K gk forPub (macCtx E r.session.view.gid r.epoch) with
        | none => .error .malformed
        | some rk =>
          let rmac := E.b64 (rosterMac E rk skd.roster)
          .ok (some { skd with rmac })

/-- The session that `admit` has stored in this step. -/
def stored (e e' : Engine E B) : Option Nat := if e'.heap.length = e.heap.length then none else some e.heap.length

end Engine

/-! ## The calls of the layer -/

/-- A send under way stays with the chain object it began with. -/
def Call.keepChain (session i : Nat) : Call E B → Call E B
  | .sending on view s => .sending (if on = .current session then .replaced i else on) view s
  | c => c

namespace Layer

def start (me : I.Pub) (base : Bool) : Layer E B :=
  ⟨.start me, .empty, .empty, [], base, ⟨.empty, []⟩, [], [], []⟩

variable (K : RosterKeys E B) (w : Layer E B)

def me : I.Pub := w.engine.me

def put (id : Nat) (c : Call E B) : Layer E B := { w with calls := w.calls.set id c }

def done (id : Nat) : Layer E B := { w with calls := w.calls.delete id }

def setInfo (gid : Bytes) (g : GroupInfo E) : Layer E B := { w with infos := w.infos.set gid g }

/-- `[this.me, ...members.filter((p) => p !== this.me)]` -/
def rosterOf (members : List I.Pub) : List I.Pub := w.me :: members.filter fun p => decide (p ≠ w.me)

/-- The loop of `persist`, up to its next await. -/
def seal_ (id : Nat) : List (GroupSnapshot E B) → Layer E B
  | [] => w.put id (.listing w.store.groups)
  | snap :: rest =>
    match E.unb64 snap.gid with
    | none => w.done id
    | some gid =>
      match w.infos.get gid with
      | none => seal_ id rest
      | some g => w.put id (.sealing gid ⟨snap, g.name⟩ rest)

def persist (id : Nat) : Layer E B := if w.base = true then w.seal_ id w.engine.snapshot else w.done id

/-- The loop of `distribute`, up to its next await. -/
def hand (id : Nat) (gid : Bytes) (save : Bool) : List I.Pub → Layer E B
  | [] => if save = true then w.persist id else w.done id
  | m :: todo =>
    match w.engine.skdFor K gid m with
    | .error _ => w.done id
    | .ok skd => w.put id (.handing gid m skd todo save)

/-- `distribute`: to every member of the attested roster, or to `only`. -/
def distribute (id : Nat) (gid : Bytes) (only : Option I.Pub) (save : Bool) : Layer E B :=
  w.hand K id gid save ((w.engine.roster gid).filter fun m => decide (m ≠ w.me ∧ ∀ p ∈ only, m = p))

/-- `open`; where it throws, `restore` goes on to the next group. -/
def open_ (id : Nat) (gid : Bytes) (next : Opened) : Layer E B :=
  match w.engine.recs.get gid with
  | some c => w.put id (.opening gid c.session next)
  | none =>
    match next with
    | .restore rest => w.put id (.reading rest)
    | _ => w.done id

/-- `setMembers`, of a group whose admin we are. -/
def setMembers (id : Nat) (gid secret : Bytes) (members : List I.Pub) : Layer E B :=
  match w.infos.get gid with
  | none => w
  | some g =>
    if g.members.head? ≠ some w.me then w
    else
      let roster := w.rosterOf members
      { w with engine := w.engine.act (.rekey id gid secret (roster.map fun pub => ⟨pub, none⟩)) }.put id
        (.rekeying gid roster)

def addMember (id : Nat) (gid secret : Bytes) (pub : I.Pub) : Layer E B :=
  match w.infos.get gid with
  | none => w
  | some g => if pub ∈ g.members then w else w.setMembers id gid secret (g.members.tail ++ [pub])

def removeMember (id : Nat) (gid secret : Bytes) (pub : I.Pub) : Layer E B :=
  match w.infos.get gid with
  | none => w
  | some g =>
    if pub = w.me then w
    else if pub ∉ g.members then w
    else w.setMembers id gid secret (g.members.tail.filter fun p => decide (p ≠ pub))

def create (id : Nat) (d : GroupManager.KeyDraws B) (secret : Bytes) (name : Units) (memberPubs : List I.Pub) :
    Layer E B :=
  let roster := w.rosterOf memberPubs
  match GroupManager.mint B d with
  | none => w
  | some (gk, gkPub) =>
    { w with engine := w.engine.act (.createGroup id gkPub secret (roster.map fun pub => ⟨pub, none⟩) (some gk)) }.put id
      (.creating (E.groupIdFromGK gkPub).1 (Envelope.clampGroupName name) roster)

def send (id : Nat) (gid pt : Bytes) : Layer E B :=
  match (w.infos.get gid).bind GroupInfo.room with
  | none => w
  | some s =>
    match w.engine.heap[s]? with
    | none => w
    | some g =>
      let header := encodeHeader (g.view.headerAt g.send_.n)
      w.put id (.sending (.current s) g.view (.keyed header pt (S.chain.messageKey g.send_.key)))

/-- `parsed.name || 'Grupa'` -/
def named : Units → Units
  | [] => Units.ascii "Grupa"
  | name => name

def onInvite (id : Nat) (from_ : I.Pub) (skd : SkdFields E) (name : Option Units) : Layer E B :=
  match E.unb64 skd.gid with
  | none => w
  | some gid =>
    let roster := w.engine.roster gid
    if roster = [] then w
    else
      match w.infos.get gid with
      | none => (w.setInfo gid ⟨named (name.getD []), skd.epoch, roster, none⟩).open_ id gid .persist
      | some g =>
        if skd.epoch < g.epoch then w
        else
          let known := if roster.head? = some from_ then (name.filter fun n => n ≠ []).getD g.name else g.name
          if g.epoch < skd.epoch then
            (w.setInfo gid { g with members := roster, name := known, epoch := skd.epoch }).open_ id gid .persist
          else (w.setInfo gid { g with members := roster, name := known }).persist id

/-! ## Sending -/

def chain : ChainRef → Option (SendChain S)
  | .current s => (w.engine.heap[s]?).map GroupSession.send_
  | .replaced i => w.replaced[i]?

def setChain (c : SendChain S) : ChainRef → Layer E B
  | .current s =>
    { w with engine := { w.engine with heap := w.engine.heap.modify s fun g => { g with send_ := c } } }
  | .replaced i => { w with replaced := w.replaced.modify i fun _ => c }

/-- A call of `send` from one await to the next. -/
def sendOn (id : Nat) (on : ChainRef) (view : Session I) : Sealing S → Layer E B
  | .keyed header pt key =>
    match w.chain on with
    | none => w
    | some c =>
      let b := aeadBox key c.n header pt
      { w with log := .sealed b :: w.log }.put id (.sending on view (.encrypting b))
  | .encrypting b =>
    match w.chain on with
    | none => w
    | some c => w.put id (.sending on view (.stepping b (S.chain.chainNext c.key)))
  | .stepping b next =>
    match w.chain on with
    | none => w
    | some c => (w.setChain ⟨next, c.n + 1⟩ on).put id (.sending on view (.tagging b))
  | .tagging b =>
    { w with log := .published (encodeFrame (view.frameFor b.aad b.ct)) b :: w.log }.put id .publishing

/-! ## Restoring -/

/-- `importChains` puts a new chain object in place. -/
def importChains (session : Nat) (c : Chains S I) : Layer E B :=
  match w.engine.heap[session]? with
  | none => w
  | some g =>
    { w with
      engine := { w.engine with heap := w.engine.heap.modify session fun g => g.importChains c }
      replaced := w.replaced ++ [g.send_]
      calls := w.calls.map fun _ call => call.keepChain session w.replaced.length }

def keepKid (gid : Bytes) (kid : Option B.Kid) : Layer E B :=
  match w.engine.recs.get gid with
  | none => w
  | some c =>
    let base := { c.base with memberGkKid := kid.or c.base.memberGkKid }
    { w with engine := { w.engine with recs := w.engine.recs.set gid { c with base } } }

/-- The turn of `restore` for a group, once the manager has its session. -/
def restored (id : Nat) (gid : Bytes) (saved : Saved E B) (session : Nat) (rest : List Bytes) : Layer E B :=
  let w := w.keepKid gid saved.snap.memberGkKid
  match GroupManager.chainsOf saved.snap with
  | none => w.put id (.reading rest)
  | some c =>
    let g : GroupInfo E := ⟨named saved.name, saved.snap.epoch, saved.snap.roster.map Member.pub, none⟩
    ((w.importChains session c).setInfo gid g).open_ id gid (.restore rest)

/-- `groups.restore` of one snapshot, up to the await of `admit`. -/
def admitSaved (id : Nat) (saved : Saved E B) (rest : List Bytes) : Layer E B :=
  match GroupManager.admissionOf saved.snap with
  | none => w.put id (.reading rest)
  | some a =>
    let held := (w.engine.recs.get a.gid.1).bind fun c => if a.epoch ≤ c.base.epoch then some c.session else none
    { w with engine := w.engine.admit_ id a none }.put id (.restoring a.gid.1 saved held rest)

/-! ## Steps -/

/-- `g.room = await …` -/
def enter (gid : Bytes) (session : Nat) : Layer E B :=
  match w.infos.get gid with
  | none => w
  | some g => w.setInfo gid { g with room := some session }

def opened (id : Nat) (gid : Bytes) : Opened → Layer E B
  | .distribute => w.distribute K id gid none true
  | .persist => w.persist id
  | .restore rest => w.put id (.reading rest)

/-- `conv.sendGroupSkd`, where there is a distribution for the member and a conversation with it. -/
def give (gid : Bytes) (m : I.Pub) (skd : Option (SkdFields E)) (reached : Bool) : Layer E B :=
  match skd, reached, w.infos.get gid with
  | some skd, true, some g => { w with handed := ⟨m, skd, g.name⟩ :: w.handed }
  | _, _, _ => w

/-- A call from one await to the next. -/
def goOn (id : Nat) (reached : Bool) : Call E B → Layer E B
  | .creating gid name roster => (w.setInfo gid ⟨name, E.zero, roster, none⟩).open_ id gid .distribute
  | .rekeying gid roster =>
    match w.infos.get gid with
    | none => w.done id
    | some g => (w.setInfo gid { g with members := roster, epoch := E.next g.epoch }).open_ id gid .distribute
  | .opening gid session next => (w.enter gid session).opened K id gid next
  | .handing gid m skd todo save => (w.give gid m skd reached).hand K id gid save todo
  | .sealing gid saved rest => { w with store := { w.store with blobs := w.store.blobs.set gid saved } }.seal_ id rest
  | .listing stored => w.put id (.indexing ((stored ++ w.infos.keys).dedup.insertionSort (· ≤ ·)))
  | .indexing groups => { w with store := { w.store with groups } }.done id
  | .reading [] => w.done id
  | .reading (gid :: rest) =>
    match w.store.blobs.get gid with
    | none => w.put id (.reading rest)
    | some saved => w.put id (.unsealing saved rest)
  | .unsealing saved rest => w.admitSaved id saved rest
  | .restoring _ _ none rest => w.put id (.reading rest)
  | .restoring gid saved (some session) rest => w.restored id gid saved session rest
  | .sending on view s => w.sendOn id on view s
  | .publishing => w.persist id

/-- The manager's part of a call goes on; where `admit` throws, so does the call. -/
def engineOn (id : Nat) (random : S.Key) : Layer E B :=
  let e' := w.engine.resume id random
  let session := w.engine.stored e'
  let w' : Layer E B := { w with engine := e', drawn := session.elim w.drawn fun _ => random :: w.drawn }
  match w.engine.tasks.get id, w.calls.get id, session with
  | some (.creating ..), some (.restoring gid saved _ rest), some s => w'.put id (.restoring gid saved (some s) rest)
  | some (.creating ..), some (.restoring _ _ _ rest), none => w'.put id (.reading rest)
  | some (.creating ..), some _, none => w'.done id
  | _, _, _ => w'

def resume (id : Nat) (random : S.Key) (reached : Bool) : Layer E B :=
  match w.engine.tasks.get id with
  | some _ => w.engineOn id random
  | none =>
    match w.calls.get id with
    | none => w
    | some c => w.goOn K id reached c

/-- A call's name is used for one call. -/
def busy (id : Nat) : Bool := (w.engine.tasks.get id).isSome || (w.calls.get id).isSome

def act : LayerAct E B → Layer E B
  | .create id d secret name memberPubs => if w.busy id then w else w.create id d secret name memberPubs
  | .setMembers id gid secret members => if w.busy id then w else w.setMembers id gid secret members
  | .addMember id gid secret pub => if w.busy id then w else w.addMember id gid secret pub
  | .removeMember id gid secret pub => if w.busy id then w else w.removeMember id gid secret pub
  | .distribute id gid only => if w.busy id then w else w.distribute K id gid only false
  | .persist id => if w.busy id then w else w.persist id
  | .restore id => if w.busy id then w else if w.base = true then w.put id (.reading w.store.groups) else w
  | .send id gid pt => if w.busy id then w else w.send id gid pt
  | .receive session p o opens t t' n header ct =>
    { w with engine := w.engine.act (.receive session p o opens t t' n header ct) }
  | .applySkd id from_ skd => if w.busy id then w else { w with engine := w.engine.act (.applySkd id from_ skd) }
  | .onInvite id from_ skd name => if w.busy id then w else w.onInvite id from_ skd name
  | .resume id random reached => w.resume K id random reached
  | .stop => { w with engine := .start w.me, infos := .empty, calls := .empty, replaced := [] }

end Layer

/-! ## Where a call goes -/

/-- What a call may wait for next: one of these snapshots, or a distribution that the manager makes now. -/
def Call.Next (K : RosterKeys E B) (e : Engine E B) (snaps : GroupSnapshot E B → Prop) : Call E B → Prop
  | .sealing gid saved rest => E.unb64 saved.snap.gid = some gid ∧ ∀ s, s = saved.snap ∨ s ∈ rest → snaps s
  | .handing gid m skd _ _ => e.skdFor K gid m = .ok skd
  | .opening .. | .listing .. | .reading .. => True
  | _ => False

namespace Layer

variable {K : RosterKeys E B} {w : Layer E B} {id : Nat} {snaps : GroupSnapshot E B → Prop}

inductive Leads (K : RosterKeys E B) (w : Layer E B) (id : Nat) (snaps : GroupSnapshot E B → Prop) : Layer E B → Prop
  | done : Leads K w id snaps (w.done id)
  | put {c : Call E B} : c.Next K w.engine snaps → Leads K w id snaps (w.put id c)

theorem leads_seal {l : List (GroupSnapshot E B)} (h : ∀ s ∈ l, snaps s) : w.Leads K id snaps (w.seal_ id l) := by
  induction l with
  | nil => exact .put trivial
  | cons snap rest ih =>
      rw [seal_]
      cases hgid : E.unb64 snap.gid with
      | none => exact .done
      | some gid =>
          dsimp only
          cases w.infos.get gid with
          | none => exact ih fun s hs => h s (List.mem_cons_of_mem _ hs)
          | some g => exact .put ⟨hgid, fun s hs => h s (List.mem_cons.mpr hs)⟩

theorem leads_persist (K : RosterKeys E B) (w : Layer E B) (id : Nat) :
    w.Leads K id (· ∈ w.engine.snapshot) (w.persist id) := by
  unfold persist
  split
  · exact leads_seal fun s hs => hs
  · exact .done

theorem leads_hand (K : RosterKeys E B) (w : Layer E B) (id : Nat) (gid : Bytes) (save : Bool) (todo : List I.Pub) :
    w.Leads K id (· ∈ w.engine.snapshot) (w.hand K id gid save todo) := by
  cases todo with
  | nil =>
      rw [hand]
      split
      · exact leads_persist K w id
      · exact .done
  | cons m todo =>
      rw [hand]
      cases hs : w.engine.skdFor K gid m with
      | error _ => exact .done
      | ok skd => exact .put hs

theorem leads_open (K : RosterKeys E B) (w : Layer E B) (id : Nat) (snaps : GroupSnapshot E B → Prop) (gid : Bytes)
    (next : Opened) : w.Leads K id snaps (w.open_ id gid next) := by
  unfold open_
  split
  · exact .put trivial
  · split
    · exact .put trivial
    · exact .done

theorem leads_opened (K : RosterKeys E B) (w : Layer E B) (id : Nat) (gid : Bytes) (next : Opened) :
    w.Leads K id (· ∈ w.engine.snapshot) (w.opened K id gid next) := by
  cases next with
  | distribute => exact leads_hand ..
  | persist => exact leads_persist ..
  | restore rest => exact .put trivial

theorem not_busy (h : w.busy id = false) : w.engine.tasks.get id = none ∧ w.calls.get id = none := by
  rw [busy, Bool.or_eq_false_iff, Option.isSome_eq_false_iff, Option.isSome_eq_false_iff, Option.isNone_iff_eq_none,
    Option.isNone_iff_eq_none] at h
  exact h

end Layer

/-! ## What the manager's calls do to it -/

namespace Engine

variable {e : Engine E B} {id : Nat}

/-- A call of `admit` nobody waits for touches its own task. -/
theorem admit_alone (e : Engine E B) (id : Nat) (a : Admission E B) :
    ∃ tasks, e.admit_ id a none = { e with tasks } ∧
      ∀ i t, tasks.get i = some t → i ≠ id ∧ e.tasks.get i = some t ∨ i = id ∧ ∃ cur, t = .creating a cur none := by
  have hwait : ∀ cur i t, (e.tasks.set id (.creating a cur none)).get i = some t →
      i ≠ id ∧ e.tasks.get i = some t ∨ i = id ∧ ∃ cur, t = .creating a cur none := by
    intro cur i t ht
    obtain ⟨hi, rfl⟩ | hi := OrdMap.get_set_some ht
    · exact Or.inr ⟨hi, cur, rfl⟩
    · exact Or.inl hi
  unfold admit_
  cases e.recs.get a.gid.1 with
  | none => exact ⟨_, rfl, hwait none⟩
  | some c =>
      dsimp only
      split
      · exact ⟨_, rfl, fun i t ht => Or.inl (OrdMap.get_delete_some ht)⟩
      · exact ⟨_, rfl, hwait (some c)⟩

theorem rekey_alone (hid : e.tasks.get id = none) (gid secret : Bytes) (roster : List (Member I B)) :
    ∃ tasks, e.act (.rekey id gid secret roster) = { e with tasks } ∧
      ∀ i t, tasks.get i = some t → e.tasks.get i = some t ∨
        i = id ∧ ∃ c a cur, e.recs.get gid = some c ∧ a.gid.1 = c.base.session.view.gid ∧ t = .creating a cur none := by
  rw [act, if_neg (by simp [hid]), rekey]
  cases hc : e.recs.get gid with
  | none => exact ⟨_, rfl, fun i t ht => Or.inl ht⟩
  | some c =>
      dsimp only
      generalize ha : (⟨⟨c.base.session.view.gid, c.base.session.view.length_gid⟩, c.base.gkPub, E.next c.base.epoch, secret,
        roster, none⟩ : Admission E B) = a
      have hgid : a.gid.1 = c.base.session.view.gid := by rw [← ha]
      obtain ⟨tasks, he, ht⟩ := e.admit_alone id a
      refine ⟨tasks, he, ?_⟩
      intro i t hi
      obtain ⟨-, hi⟩ | ⟨rfl, cur, rfl⟩ := ht i t hi
      · exact Or.inl hi
      · exact Or.inr ⟨rfl, c, a, cur, rfl, hgid, rfl⟩

theorem createGroup_alone (hid : e.tasks.get id = none) (gkPub secret : Bytes) (roster : List (Member I B))
    (gk : Option (AdminGk B)) :
    ∃ a, e.act (.createGroup id gkPub secret roster gk) = { e with tasks := e.tasks.set id (.founding a) } := by
  rw [act, if_neg (by simp [hid])]
  exact ⟨_, rfl⟩

/-- A session is created and stored, or `admit` throws. -/
inductive Created (e : Engine E B) (id : Nat) (a : Admission E B) (random : S.Key) : Engine E B → Prop
  | threw : Created e id a random (e.done id)
  | stored {held : Held E B} {g : GroupSession S I} :
      held.base.session.view.gid = a.gid.1 → held.session = e.heap.length → held.base.epoch = a.epoch →
      held.base.secret = a.secret → held.base.roster = a.roster → g.view.gid = a.gid.1 →
      g.send_ = Group.newSendChain random →
      Created e id a random
        { e with
          heap := e.heap ++ [g]
          recs := e.recs.set a.gid.1 held
          installs := (a.gid.1, held) :: e.installs
          tasks := e.tasks.delete id }

theorem created_cases (e : Engine E B) (id : Nat) (a : Admission E B) (cur : Option (Held E B)) (random : S.Key) :
    Created e id a random (e.created id a cur none random) := by
  unfold created
  cases hg : GroupSession.create E e.me a.gid a.epoch (a.roster.map Member.pub) random with
  | none => exact .threw
  | some g =>
      have hfresh : g.view.gid = a.gid.1 ∧ g.send_ = Group.newSendChain random := by
        unfold GroupSession.create at hg
        split at hg
        · cases hg
          exact ⟨rfl, rfl⟩
        · cases hg
      exact .stored hfresh.1 rfl rfl rfl rfl hfresh.1 hfresh.2

end Engine

end EncedoChat.Groups
