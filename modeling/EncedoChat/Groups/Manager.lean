import EncedoChat.Group.Manager

/-!
# What a manager writes down

`snapshot` and `restore` of `GroupManager` in `lib/group.ts`, over records whose chains are at rest: one receiver
for each member that handed its key over. What the calls check of a distribution is `attest` of the group manager.
-/

namespace EncedoChat.Groups

open EncedoChat.Group (Suite Identities Env Session SendChain SenderReceiver Gid SkdFields SkdOutcome SkdError Open Time
  ReceiverOpts newSendChain)

/-- Where the group keys of an admin come from: a device, or scalars held here. -/
structure Backend where
  Kid : Type
  /-- There is a `gkBackend`. -/
  wired : Bool
  /-- The public half of a scalar; `importKey` throws on what is none. -/
  x25519FromPriv : Bytes → Option Bytes

variable {S : Suite} {I : Identities} {E : Env S I} {B : Backend}

/-- What the admin of a group holds: the device's name for the key, or its scalar. -/
inductive AdminGk (B : Backend) where
  | hem (kid : B.Kid)
  | software (priv : Bytes)

namespace AdminGk

def kid : AdminGk B → Option B.Kid
  | .hem kid => some kid
  | .software _ => none

def priv : AdminGk B → Option Bytes
  | .hem _ => none
  | .software priv => some priv

end AdminGk

def softwareGkFromPriv (B : Backend) (priv : Bytes) : Option (AdminGk B) :=
  (B.x25519FromPriv priv).map fun _ => .software priv

structure Member (I : Identities) (B : Backend) where
  pub : I.Pub
  kid : Option B.Kid

/-! ## Sessions -/

/-- `exportChains` -/
structure Chains (S : Suite) (I : Identities) where
  send : S.Key × Nat
  receivers : List (I.Pub × S.Key × Nat)

structure GroupSession (S : Suite) (I : Identities) where
  view : Session I
  send_ : SendChain S
  receivers : OrdMap I.Pub (SenderReceiver S)

namespace GroupSession

/-- `GroupSession.create` with a fresh sending chain. -/
def create (E : Env S I) (me : I.Pub) (gid : Gid) (epoch : E.Epoch) (members : List I.Pub) (random : S.Key) :
    Option (GroupSession S I) :=
  if E.decodes me = true ∧ members.all E.decodes = true then
    some ⟨⟨me, gid.1, E.toU32 epoch, members, gid.length_eq⟩, newSendChain random, .empty⟩
  else none

/-- What `setSenderKey` does to the receivers; the frames held are the lane's. -/
def setSenderKey (g : GroupSession S I) (p : I.Pub) (chainKey : S.Key) (ctr : Nat) : GroupSession S I :=
  if p = g.view.me then g
  else if ((g.receivers.get p).any fun r => decide (ctr < r.n)) = true then g
  else { g with receivers := g.receivers.set p (.make chainKey ctr) }

def exportChains (g : GroupSession S I) : Chains S I where
  send := (g.send_.key, g.send_.n)
  receivers := g.receivers.entries.map fun e => (e.1, e.2.snapshot)

def importChains (g : GroupSession S I) (c : Chains S I) : GroupSession S I :=
  { g with
    send_ := ⟨c.send.1, c.send.2⟩
    receivers := c.receivers.foldl (fun m r => m.set r.1 (.make r.2.1 r.2.2)) .empty }

/-- `seal` moves the sending chain. -/
def sealed (g : GroupSession S I) : GroupSession S I :=
  { g with send_ := ⟨S.chain.chainNext g.send_.key, g.send_.n + 1⟩ }

/-- `open` of the receiver of a member, clock readings and the AEAD given. -/
def openAt (o : ReceiverOpts) (g : GroupSession S I) (p : I.Pub) (opens : Open S) (t t' : Time) (n : Nat)
    (header ct : Bytes) : GroupSession S I :=
  match g.receivers.get p with
  | none => g
  | some r => { g with receivers := g.receivers.set p (r.openAt o opens t t' n header ct).1 }

end GroupSession

/-! ## Records and their snapshots -/

structure GroupRec (E : Env S I) (B : Backend) where
  session : GroupSession S I
  gkPub : Bytes
  secret : Bytes
  roster : List (Member I B)
  epoch : E.Epoch
  gk : Option (AdminGk B)
  /-- The device's entry of GK_pub, at a member. -/
  memberGkKid : Option B.Kid

structure GroupSnapshot (E : Env S I) (B : Backend) where
  gid : E.Text
  gkPub : E.Text
  epoch : E.Epoch
  secret : E.Text
  roster : List (Member I B)
  gkKid : Option B.Kid
  memberGkKid : Option B.Kid
  gkPriv : Option E.Text
  send : E.Text × Nat
  receivers : List (I.Pub × E.Text × Nat)

namespace GroupRec

def snapshot (r : GroupRec E B) : GroupSnapshot E B :=
  let c := r.session.exportChains
  { gid := E.b64 r.session.view.gid
    gkPub := E.b64 r.gkPub
    epoch := r.epoch
    secret := E.b64 r.secret
    roster := r.roster
    gkKid := r.gk.bind AdminGk.kid
    memberGkKid := r.memberGkKid
    gkPriv := (r.gk.bind AdminGk.priv).map E.b64
    send := (E.b64 (E.keyBytes c.send.1), c.send.2)
    receivers := c.receivers.map fun e => (e.1, E.b64 (E.keyBytes e.2.1), e.2.2) }

/-- The record as far as `applySkd` looks at it. -/
def bare (r : GroupRec E B) : Group.GroupRec E where
  session := ⟨r.session.view, r.session.send_, .empty⟩
  gkPub := r.gkPub
  secret := r.secret
  roster := r.roster.map Member.pub
  epoch := r.epoch
  gk := none

end GroupRec

structure Admission (E : Env S I) (B : Backend) where
  gid : Gid
  gkPub : Bytes
  epoch : E.Epoch
  secret : Bytes
  roster : List (Member I B)
  gk : Option (AdminGk B)

structure GroupManager (E : Env S I) (B : Backend) where
  me : I.Pub
  recs : OrdMap Bytes (GroupRec E B)

namespace GroupManager

def start (me : I.Pub) : GroupManager E B := ⟨me, .empty⟩

/-- The end of `admit`: the record with its new session; GK and the device's entry survive a rekey. -/
def install (m : GroupManager E B) (a : Admission E B) (cur : Option (GroupRec E B)) (session : GroupSession S I) :
    GroupManager E B :=
  let held : GroupRec E B :=
    ⟨session, a.gkPub, a.secret, a.roster, a.epoch, a.gk.or (cur.bind GroupRec.gk), cur.bind GroupRec.memberGkKid⟩
  { m with recs := m.recs.set a.gid.1 held }

/-- A record at this epoch or a later one is kept as it is. -/
def admit_ (m : GroupManager E B) (a : Admission E B) (random : S.Key) : Option (GroupManager E B) :=
  let cur := m.recs.get a.gid.1
  if (cur.any fun c => decide (a.epoch ≤ c.epoch)) = true then some m
  else (GroupSession.create E m.me a.gid a.epoch (a.roster.map Member.pub) random).map (m.install a cur)

def updateRec (m : GroupManager E B) (gid : Bytes) (f : GroupRec E B → GroupRec E B) : GroupManager E B :=
  match m.recs.get gid with
  | none => m
  | some r => { m with recs := m.recs.set gid (f r) }

/-- The session of a group moves, its record stays. -/
def update (m : GroupManager E B) (gid : Bytes) (f : GroupSession S I → GroupSession S I) : GroupManager E B :=
  m.updateRec gid fun r => { r with session := f r.session }

def roster (m : GroupManager E B) (gid : Bytes) : List I.Pub :=
  ((m.recs.get gid).map fun r => r.roster.map Member.pub).getD []

def setSenderKey (m : GroupManager E B) (gid : Bytes) (p : I.Pub) (chain : Bytes) (ctr : Option Nat) :
    GroupManager E B :=
  m.update gid fun g => g.setSenderKey p (E.bytesKey chain) (ctr.getD 0)

/-- The first sight of a group, or a newer epoch of it. -/
def advance (m : GroupManager E B) (random : S.Key) (from_ : I.Pub) (skd : SkdFields E) (gid : Bytes)
    (cur : Option (GroupRec E B)) (outcome : SkdOutcome) : GroupManager E B × Except SkdError SkdOutcome :=
  match (Group.GroupManager.start m.me).attest from_ skd gid (cur.map GroupRec.bare) with
  | .error e => (m, .error e)
  | .ok a =>
    match m.admit_ ⟨a.gid, a.gkPub, a.epoch, a.secret, a.roster.map fun pub => ⟨pub, none⟩, none⟩ random with
    | none => (m, .error .malformed)
    | some m' =>
      match E.unb64 skd.chain with
      | none => (m', .error .malformed)
      | some chain => (m'.setSenderKey gid from_ chain skd.ctr, .ok outcome)

def applySkd (m : GroupManager E B) (random : S.Key) (from_ : I.Pub) (skd : SkdFields E) :
    GroupManager E B × Except SkdError SkdOutcome :=
  match E.unb64 skd.gid with
  | none => (m, .error .malformed)
  | some gid =>
    match m.recs.get gid with
    | none => m.advance random from_ skd gid none .joined
    | some cur =>
      if cur.epoch < skd.epoch then m.advance random from_ skd gid (some cur) .rekeyed
      else if skd.epoch < cur.epoch then (m, .ok .stale)
      else if from_ ∉ cur.roster.map Member.pub then (m, .ok .refused)
      else
        match E.unb64 skd.chain with
        | none => (m, .error .malformed)
        | some chain => (m.setSenderKey gid from_ chain skd.ctr, .ok .senderkey)

/-! ## What the admin does -/

/-- What minting a group key draws: the device's answer, or a scalar. -/
structure KeyDraws (B : Backend) where
  kid : B.Kid
  pub : Bytes
  priv : Bytes

/-- `gkBackend.create`, or `softwareGk` without a device. -/
def mint (B : Backend) (d : KeyDraws B) : Option (AdminGk B × Bytes) :=
  if B.wired = true then some (.hem d.kid, d.pub)
  else (softwareGkFromPriv B d.priv).bind fun gk => (B.x25519FromPriv d.priv).map fun pub => (gk, pub)

def createGroup (m : GroupManager E B) (random : S.Key) (secret : Bytes) (gkPub : Bytes) (roster : List (Member I B))
    (gk : Option (AdminGk B)) : Option (GroupManager E B) :=
  m.admit_ ⟨E.groupIdFromGK gkPub, gkPub, E.zero, secret, roster, gk⟩ random

def createGroupWithNewKey (m : GroupManager E B) (d : KeyDraws B) (random : S.Key) (secret : Bytes)
    (roster : List (Member I B)) : Option (GroupManager E B) :=
  (mint B d).bind fun made => m.createGroup random secret made.2 roster (some made.1)

/-- The next epoch, under a new secret and a new roster. -/
def rekey (m : GroupManager E B) (random : S.Key) (secret : Bytes) (gid : Bytes) (newRoster : List (Member I B)) :
    Option (GroupManager E B) :=
  match m.recs.get gid with
  | none => some m
  | some r =>
    m.admit_ ⟨⟨r.session.view.gid, r.session.view.length_gid⟩, r.gkPub, E.next r.epoch, secret, newRoster, none⟩ random

def dropGroup (m : GroupManager E B) (gid : Bytes) : GroupManager E B := { m with recs := m.recs.delete gid }

/-- What `writeMemberMarker` and `dropMemberMarker` leave of the device's entry. -/
def setMemberGkKid (m : GroupManager E B) (gid : Bytes) (kid : Option B.Kid) : GroupManager E B :=
  m.updateRec gid fun r => { r with memberGkKid := kid }

/-! ## Snapshot and restore -/

def snapshot (m : GroupManager E B) : List (GroupSnapshot E B) := m.recs.entries.map fun e => e.2.snapshot

/-- The admin's key from what a snapshot says of it; `none` where that throws. -/
def regain (s : GroupSnapshot E B) : Option (Option (AdminGk B)) :=
  match s.gkKid, s.gkPriv with
  | some kid, _ => some (if B.wired = true then some (.hem kid) else none)
  | none, some priv => ((E.unb64 priv).bind (softwareGkFromPriv B)).map some
  | none, none => some none

/-- A group id read from its text. -/
def readGid (t : E.Text) : Option Gid :=
  (E.unb64 t).bind fun b => if h : b.length = 16 then some ⟨b, h⟩ else none

/-- What `restore` hands to `admit`. -/
def admissionOf (s : GroupSnapshot E B) : Option (Admission E B) :=
  (readGid s.gid).bind fun gid => (regain s).bind fun gk => (E.unb64 s.gkPub).bind fun gkPub =>
    (E.unb64 s.secret).map fun secret => ⟨gid, gkPub, s.epoch, secret, s.roster, gk⟩

/-- What `restore` hands to `importChains`. -/
def chainsOf (s : GroupSnapshot E B) : Option (Chains S I) :=
  (E.unb64 s.send.1).bind fun key =>
    (s.receivers.mapM fun r => (E.unb64 r.2.1).map fun k => (r.1, E.bytesKey k, r.2.2)).map fun receivers =>
      ⟨(E.bytesKey key, s.send.2), receivers⟩

/-- One turn of the loop of `restore`: the group restored, or nothing where it threw. -/
def restoreOne (m : GroupManager E B) (random : S.Key) (s : GroupSnapshot E B) : GroupManager E B × Option Bytes :=
  match admissionOf s with
  | none => (m, none)
  | some a =>
    match m.admit_ a random with
    | none => (m, none)
    | some m' =>
      let m' := m'.updateRec a.gid.1 fun r => { r with memberGkKid := s.memberGkKid.or r.memberGkKid }
      match chainsOf s with
      | none => (m', none)
      | some c => (m'.update a.gid.1 fun g => g.importChains c, some a.gid.1)

/-- `restore`; the `i`-th session created draws `random i`. -/
def restoreFrom (random : Nat → S.Key) (m : GroupManager E B) : Nat → List (GroupSnapshot E B) →
    GroupManager E B × Option (List Bytes)
  | _, [] => (m, some [])
  | i, s :: snaps =>
    match m.restoreOne (random i) s with
    | (m', none) => (m', none)
    | (m', some gid) =>
      let rest := restoreFrom random m' (i + 1) snaps
      (rest.1, rest.2.map (gid :: ·))

def restore (random : Nat → S.Key) (m : GroupManager E B) (snaps : List (GroupSnapshot E B)) :
    GroupManager E B × Option (List Bytes) :=
  restoreFrom random m 0 snaps

end GroupManager

/-! ## A symbolic group -/

namespace Symbolic

open EncedoChat.Group.Symbolic (Key)

/-- A secret is written as so many zeros. -/
def keyBytes : Key → Bytes
  | .secret n => 0 :: List.replicate n 0
  | .message ck => 1 :: keyBytes ck
  | .next ck => 2 :: keyBytes ck

def bytesKey : Bytes → Key
  | 1 :: b => .message (bytesKey b)
  | 2 :: b => .next (bytesKey b)
  | b => .secret (b.length - 1)

def env : Env Group.Symbolic.suite Group.Symbolic.identities := { Group.Symbolic.env with keyBytes, bytesKey }

def scalars : Backend := ⟨Unit, false, some⟩

def group : Bytes := 9 :: List.replicate 15 0

/-- What admin 1 sends to member 2. -/
def skd (epoch : Nat) : SkdFields env :=
  let roster : List UInt8 := [1, 2]
  { gid := group
    gkPub := [9]
    epoch := epoch
    secret := [7]
    chain := keyBytes (.secret (10 + epoch))
    ctr := some 0
    roster := roster
    rmac := some ((2 :: ([9] ++ (group ++ Bytes.u32be epoch))) ++ rosterText) }
where
  rosterText : Bytes := [1, 10, 2]

end Symbolic

end EncedoChat.Groups
