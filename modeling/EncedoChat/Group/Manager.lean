import Mathlib.Order.Defs.LinearOrder
import EncedoChat.Group.Lane

/-!
# The group manager

`GroupManager` of `lib/group.ts`: the records of the groups we are in, what a distribution does to them, and
what we hand out. Markers, labels and the memo of roster keys are left out; they decide nothing here.
-/

namespace EncedoChat.Group

abbrev Gid := {b : Bytes // b.length = 16}

theorem Gid.length_eq (gid : Gid) : gid.1.length = 16 := gid.2

/-- What the manager asks of base64, of hashes and of the keys of a group. -/
structure Env (S : Suite) (I : Identities) where
  Text : Type
  b64 : Bytes → Text
  /-- `atob` throws on what is not base64. -/
  unb64 : Text → Option Bytes
  /-- Whether a member's key is base64 at all: `senderIdOf` throws otherwise. -/
  decodes : I.Pub → Bool
  /-- `enc.encode(pub)` -/
  pubBytes : I.Pub → Bytes
  /-- A number of the source language. -/
  Epoch : Type
  [order : LinearOrder Epoch]
  next : Epoch → Epoch
  zero : Epoch
  /-- What `setUint32` stores of an epoch. -/
  toU32 : Epoch → Nat
  keyBytes : S.Key → Bytes
  bytesKey : Bytes → S.Key
  /-- `SHA-256(GK_pub)[0:16]` -/
  groupIdFromGK : Bytes → Gid
  RosterKey : Type
  /-- rk_i on the member's side: who we are, GK_pub, `gid ‖ epoch`. -/
  rosterMacKeyFor : I.Pub → Bytes → Bytes → Option RosterKey
  /-- The admin's half of GK, and rk_i derived with it. -/
  AdminGk : Type
  rosterKeyFor : AdminGk → I.Pub → Bytes → Option RosterKey
  hmac : RosterKey → Bytes → Bytes

attribute [instance] Env.order

variable {S : Suite} {I : Identities} {E : Env S I}

def macCtx (E : Env S I) (gid : Bytes) (epoch : E.Epoch) : Bytes := gid ++ Bytes.u32be (E.toU32 epoch)

/-- The members in order, one on a line. -/
def rosterBytes (E : Env S I) (roster : List I.Pub) : Bytes := List.intercalate [10] (roster.map E.pubBytes)

def rosterMac (E : Env S I) (rk : E.RosterKey) (roster : List I.Pub) : Bytes := E.hmac rk (rosterBytes E roster)

def verifyRosterMac (E : Env S I) (rk : E.RosterKey) (roster : List I.Pub) (mac : Bytes) : Bool :=
  decide (rosterMac E rk roster = mac)

/-! ## A session and its chains -/

structure GroupSession (S : Suite) (I : Identities) where
  view : Session I
  send_ : SendChain S
  lanes : OrdMap I.Pub (Lane S I)

/-- The clock, and names for what a call starts. -/
structure Draws (S : Suite) where
  random : S.Key
  id : Nat
  t : Time

namespace GroupSession

/-- `GroupSession.create` with a fresh sending chain. -/
def create (E : Env S I) (me : I.Pub) (gid : Gid) (epoch : E.Epoch) (members : List I.Pub) (random : S.Key) :
    Option (GroupSession S I) :=
  if E.decodes me = true ∧ members.all E.decodes = true then
    some ⟨⟨me, gid.1, E.toU32 epoch, members, gid.2⟩, newSendChain random, .empty⟩
  else none

def lane (g : GroupSession S I) (p : I.Pub) : Lane S I := (g.lanes.get p).getD (.start g.view p)

def hasSenderKey (g : GroupSession S I) (p : I.Pub) : Bool := (g.lane p).cur.isSome

/-- What a call or a continuation does to the session is done to one member's lane. -/
def onLane (g : GroupSession S I) (p : I.Pub) (f : Lane S I → Lane S I) : GroupSession S I :=
  { g with lanes := g.lanes.set p (f (g.lane p)) }

def setSenderKey (g : GroupSession S I) (d : Draws S) (p : I.Pub) (chainKey : S.Key) (ctr : Nat) : GroupSession S I :=
  g.onLane p fun l => l.setSenderKey d.id chainKey ctr d.t

end GroupSession

/-! ## Records -/

structure GroupRec (E : Env S I) where
  session : GroupSession S I
  gkPub : Bytes
  secret : Bytes
  roster : List I.Pub
  epoch : E.Epoch
  /-- present iff we are the admin -/
  gk : Option E.AdminGk

structure GroupManager (E : Env S I) where
  me : I.Pub
  recs : OrdMap Bytes (GroupRec E)

/-- The fields of a distribution, as its sender wrote them. -/
structure SkdFields (E : Env S I) where
  gid : E.Text
  gkPub : E.Text
  epoch : E.Epoch
  secret : E.Text
  chain : E.Text
  ctr : Option Nat
  roster : List I.Pub
  rmac : Option E.Text

inductive SkdOutcome where
  | joined | rekeyed | senderkey | refused | stale
  deriving DecidableEq

inductive SkdError where
  /-- not base64, or no key to agree with -/
  | malformed
  | gidMismatch
  | noRosterMac
  | macInvalid
  | notAdmin
  | adminMoved
  deriving DecidableEq

def SkdError.message : SkdError → Option String
  | .malformed => none
  | .gidMismatch => some "group id does not match its GK — rejected"
  | .noRosterMac => some "group SKD advances the epoch without a roster MAC — rejected"
  | .macInvalid => some "group roster MAC does not verify — rejected"
  | .notAdmin => some "group SKD: roster[0] is not the sender holding GK — rejected"
  | .adminMoved => some "group SKD: the admin changed between epochs — rejected"

/-- What `admit` is given. -/
structure Admission (E : Env S I) where
  gid : Gid
  gkPub : Bytes
  epoch : E.Epoch
  secret : Bytes
  roster : List I.Pub
  gk : Option E.AdminGk

namespace GroupManager

def start (me : I.Pub) : GroupManager E := ⟨me, .empty⟩

/-- The end of `admit`: the record with its new session; GK survives a rekey. -/
def install (m : GroupManager E) (a : Admission E) (cur : Option (GroupRec E)) (session : GroupSession S I) :
    GroupManager E :=
  let held : GroupRec E := ⟨session, a.gkPub, a.secret, a.roster, a.epoch, a.gk.or (cur.bind GroupRec.gk)⟩
  { m with recs := m.recs.set a.gid.1 held }

/-- A record at this epoch or a later one is kept as it is. -/
def admit_ (m : GroupManager E) (a : Admission E) (random : S.Key) : Option (GroupManager E) :=
  let cur := m.recs.get a.gid.1
  if (cur.any fun c => decide (a.epoch ≤ c.epoch)) = true then some m
  else (GroupSession.create E m.me a.gid a.epoch a.roster random).map (m.install a cur)

def roster (m : GroupManager E) (gid : Bytes) : List I.Pub := ((m.recs.get gid).map GroupRec.roster).getD []

def isMember (m : GroupManager E) (gid : Bytes) (p : I.Pub) : Bool := decide (p ∈ m.roster gid)

/-- The session of a group moves, its record stays. -/
def update (m : GroupManager E) (gid : Bytes) (f : GroupSession S I → GroupSession S I) : GroupManager E :=
  match m.recs.get gid with
  | none => m
  | some r => { m with recs := m.recs.set gid { r with session := f r.session } }

def setSenderKey (m : GroupManager E) (d : Draws S) (gid : Bytes) (p : I.Pub) (chain : Bytes) (ctr : Option Nat) :
    GroupManager E :=
  m.update gid fun g => g.setSenderKey d p (E.bytesKey chain) (ctr.getD 0)

/-- What `applySkd` checks before the group, or a newer epoch of it, is taken on. -/
def attest (m : GroupManager E) (from_ : I.Pub) (skd : SkdFields E) (gid : Bytes) (cur : Option (GroupRec E)) :
    Except SkdError (Admission E) :=
  match E.unb64 skd.gkPub with
  | none => .error .malformed
  | some gkPub =>
    if gid ≠ (E.groupIdFromGK gkPub).1 then .error .gidMismatch
    else
      match skd.rmac with
      | none => .error .noRosterMac
      | some rmac =>
        match E.rosterMacKeyFor m.me gkPub (macCtx E gid skd.epoch), E.unb64 rmac with
        | some rk, some mac =>
          if verifyRosterMac E rk skd.roster mac = false then .error .macInvalid
          else if skd.roster.head? ≠ some from_ then .error .notAdmin
          else if (cur.any fun c => decide (c.roster.head? ≠ skd.roster.head?)) = true then .error .adminMoved
          else
            match E.unb64 skd.secret with
            | none => .error .malformed
            | some secret => .ok ⟨E.groupIdFromGK gkPub, gkPub, skd.epoch, secret, skd.roster, none⟩
        | _, _ => .error .malformed

/-- The first sight of a group, or a newer epoch of it. -/
def advance (m : GroupManager E) (d : Draws S) (from_ : I.Pub) (skd : SkdFields E) (gid : Bytes)
    (cur : Option (GroupRec E)) (outcome : SkdOutcome) : GroupManager E × Except SkdError SkdOutcome :=
  match m.attest from_ skd gid cur with
  | .error e => (m, .error e)
  | .ok a =>
    match m.admit_ a d.random with
    | none => (m, .error .malformed)
    | some m' =>
      match E.unb64 skd.chain with
      | none => (m', .error .malformed)
      | some chain => (m'.setSenderKey d gid from_ chain skd.ctr, .ok outcome)

def applySkd (m : GroupManager E) (d : Draws S) (from_ : I.Pub) (skd : SkdFields E) :
    GroupManager E × Except SkdError SkdOutcome :=
  match E.unb64 skd.gid with
  | none => (m, .error .malformed)
  | some gid =>
    match m.recs.get gid with
    | none => m.advance d from_ skd gid none .joined
    | some cur =>
      if cur.epoch < skd.epoch then m.advance d from_ skd gid (some cur) .rekeyed
      else if skd.epoch < cur.epoch then (m, .ok .stale)
      else if from_ ∉ cur.roster then (m, .ok .refused)
      else
        match E.unb64 skd.chain with
        | none => (m, .error .malformed)
        | some chain => (m.setSenderKey d gid from_ chain skd.ctr, .ok .senderkey)

/-- The distribution for a member, or for nobody by name. -/
def skdFor (m : GroupManager E) (gid : Bytes) (forPub : Option I.Pub) : Except SkdError (Option (SkdFields E)) :=
  match m.recs.get gid with
  | none => .ok none
  | some r =>
    if (forPub.any fun p => decide (p ∉ r.roster)) = true then .ok none
    else
      let skd : SkdFields E :=
        { gid := E.b64 r.session.view.gid
          gkPub := E.b64 r.gkPub
          epoch := r.epoch
          secret := E.b64 r.secret
          chain := E.b64 (E.keyBytes r.session.send_.key)
          ctr := some r.session.send_.n
          roster := r.roster
          rmac := none }
      match r.gk, forPub with
      | some gk, some p =>
        match E.rosterKeyFor gk p (macCtx E r.session.view.gid r.epoch) with
        | none => .error .malformed
        | some rk =>
          let rmac := E.b64 (rosterMac E rk skd.roster)
          .ok (some { skd with rmac })
      | _, _ => .ok (some skd)

end GroupManager

/-- Calls of `applySkd`, each awaited, and what goes on in the sessions between them. -/
inductive ManagerAct (E : Env S I) where
  | applySkd (d : Draws S) (from_ : I.Pub) (skd : SkdFields E)
  | receive (gid : Bytes) (p : I.Pub) (id : Nat) (frame : Bytes)
  | resume (gid : Bytes) (p : I.Pub) (id : Nat) (opens : Open S) (t : Time)

def GroupManager.act (o : ReceiverOpts) (m : GroupManager E) : ManagerAct E → GroupManager E
  | .applySkd d from_ skd => (m.applySkd d from_ skd).1
  | .receive gid p id frame => m.update gid fun g => g.onLane p fun l => l.receive id frame
  | .resume gid p id opens t => m.update gid fun g => g.onLane p fun l => l.resume o id opens t

/-! ## Symbolic groups -/

namespace Symbolic

def Key.bytes : Key → Bytes
  | .secret n => [0, n.toUInt8]
  | .message ck => 1 :: ck.bytes
  | .next ck => 2 :: ck.bytes

def Key.ofBytes : Bytes → Key
  | 1 :: b => .message (Key.ofBytes b)
  | 2 :: b => .next (Key.ofBytes b)
  | _ :: n :: _ => .secret n.toNat
  | _ => .secret 0

/-- Base64 is no encoding here, a roster key is who it is for, GK and context, and a MAC is its key and text. -/
def env : Env suite identities where
  Text := Bytes
  b64 := id
  unb64 := some
  decodes _ := true
  pubBytes := fun (p : UInt8) => [p]
  Epoch := Nat
  next := Nat.succ
  zero := 0
  toU32 e := e % 2 ^ 32
  keyBytes := Key.bytes
  bytesKey := Key.ofBytes
  groupIdFromGK gk := ⟨(gk ++ List.replicate 16 0).take 16, by simp⟩
  RosterKey := Bytes
  rosterMacKeyFor := fun (p : UInt8) gkPub ctx => some (p :: (gkPub ++ ctx))
  AdminGk := Bytes
  rosterKeyFor := fun gk (p : UInt8) ctx => some (p :: (gk ++ ctx))
  hmac rk text := rk ++ text

end Symbolic

end EncedoChat.Group
