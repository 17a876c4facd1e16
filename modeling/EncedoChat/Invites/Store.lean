import EncedoChat.Lib.Text
import EncedoChat.Lib.Run
import EncedoChat.Lib.Register

/-!
# Published invites and ignored keys

`InviteStore` of `cli/invites.ts` over the sealed records of `lib/sealedstore.ts`. Each call reads its record when it is
made, changes the list once that is open, and stores it once that is sealed.
-/

namespace EncedoChat.Invites

structure PubInvite where
  id : String
  label : String
  secret : String
  created : Nat
  expires : Option Nat
  deriving DecidableEq

structure Ignored where
  fp : String
  /-- `at` -/
  since : Nat
  deriving DecidableEq

def IGNORED_MAX : Nat := 512

/-- A store's text: JSON, which may be an array, or a blob, which may open under the identity's base. -/
inductive Stored (V : Type) where
  | json (v : Option V)
  | blob (v : Option V)

/-- Is there a cache base, and have all stores been sealed before? -/
structure Keys where
  base : Bool
  sealedOnly : Bool

def readSealedKV {V : Type} (keys : Keys) : Option (Stored V) → Option V
  | none => none
  | some (.json v) => if keys.sealedOnly then none else v
  | some (.blob v) => if keys.base then v else none

def writeSealedKV {V : Type} (keys : Keys) (v : V) : Option (Option (Stored V)) :=
  if keys.base then some (some (.blob (some v))) else none

/-- The invite that `create` makes of its arguments and its draws. -/
def newInvite (label : String) (ttlMs : Option Nat) (now : Nat) (id secret : String) : PubInvite where
  id := id
  label := if Text.trim label = "" then "zaproszenie" else Text.trim label
  secret := secret
  created := now
  expires := (ttlMs.filter (· ≠ 0)).map (now + ·)

/-! ## What the calls make of the lists -/

inductive InviteOp where
  | create (inv : PubInvite)
  | revoke (id : String)
  deriving DecidableEq

def changeInvites : InviteOp → List PubInvite → Option (List PubInvite)
  | .create inv, list => some (inv :: list)
  | .revoke id, list =>
    let keep := list.filter (·.id ≠ id)
    if keep.length = list.length then none else some keep

def ignore (r : Ignored) (list : List Ignored) : Option (List Ignored) :=
  if list.any (·.fp = r.fp) then none else some ((r :: list).take IGNORED_MAX)

def invitesKind (keys : Keys) : Register.Kind (Option (Stored (List PubInvite))) InviteOp (List PubInvite) where
  read t := (readSealedKV keys t).getD []
  write := writeSealedKV keys
  change := changeInvites

def ignoredKind (keys : Keys) : Register.Kind (Option (Stored (List Ignored))) Ignored (List Ignored) where
  read t := (readSealedKV keys t).getD []
  write := writeSealedKV keys
  change := ignore

structure InviteStore where
  invites : Register (Option (Stored (List PubInvite))) InviteOp (List PubInvite)
  ignored : Register (Option (Stored (List Ignored))) Ignored (List Ignored)

/-- `create` throws without a base, before it reads. -/
inductive Event where
  | create (label : String) (ttlMs : Option Nat) (now : Nat) (id secret : String)
  | revoke (id : String)
  | ignore (fp : String) (now : Nat)
  /-- a call on the invites goes on, or one on the ignored keys -/
  | resumeInvites (k : Nat) (ok : Bool)
  | resumeIgnored (k : Nat) (ok : Bool)

namespace InviteStore

variable (keys : Keys) (s : InviteStore)

def opened (invites : Option (Stored (List PubInvite))) (ignored : Option (Stored (List Ignored))) : InviteStore :=
  ⟨.opened invites, .opened ignored⟩

def onInvites (a : Register.Act InviteOp) : InviteStore := { s with invites := s.invites.act (invitesKind keys) a }

def onIgnored (a : Register.Act Ignored) : InviteStore := { s with ignored := s.ignored.act (ignoredKind keys) a }

def act : Event → InviteStore
  | .create label ttlMs now id secret =>
    if keys.base then s.onInvites keys (.call (.create (newInvite label ttlMs now id secret))) else s
  | .revoke id => s.onInvites keys (.call (.revoke id))
  | .ignore fp now => s.onIgnored keys (.call ⟨fp, now⟩)
  | .resumeInvites k ok => s.onInvites keys (.resume k ok)
  | .resumeIgnored k ok => s.onIgnored keys (.resume k ok)

/-- `invites()` -/
def list : List PubInvite := (readSealedKV keys s.invites.text).getD []

/-- `ignored()` -/
def ignoreList : List Ignored := (readSealedKV keys s.ignored.text).getD []

/-- Writes are kept, and of records that are still as they were read, or as good as that. -/
def Current : Event → Prop
  | .resumeInvites k ok => s.invites.Current (invitesKind keys) (.resume k ok)
  | .resumeIgnored k ok => s.ignored.Current (ignoredKind keys) (.resume k ok)
  | _ => True

/-- The fingerprints ignored, the newest first. -/
def fingerprints (log : List (Mark Ignored)) : List String :=
  log.filterMap fun m => match m with
    | .done r => some r.fp
    | .called _ => none

/-- A fingerprint is on the list, or so many others were ignored since that it is not among the newest. -/
def Listed (fp : String) (since : List String) (ahead : Nat) : Prop :=
  fp ∈ (s.ignoreList keys).map Ignored.fp ∨
    ∃ others : List String, others.Nodup ∧ others ⊆ since ∧ fp ∉ others ∧ IGNORED_MAX ≤ ahead + others.length

/-- What was asked for is in the records of a store that was opened as `s₀`. -/
structure Kept (s₀ : InviteStore) : Prop where
  created : ∀ inv, .done (.create inv) ∈ s.invites.log ∨ inv ∈ s₀.list keys → .called (.revoke inv.id) ∉ s.invites.log →
    inv ∈ s.list keys
  revoked : ∀ id newer older, s.invites.log = newer ++ .called (.revoke id) :: older →
    (∀ inv, .done (.create inv) ∈ newer → inv.id ≠ id) → ∀ inv ∈ s.list keys, inv.id ≠ id
  ignored : ∀ fp newer older, fingerprints s.ignored.log = newer ++ fp :: older → fp ∉ older →
    fp ∉ (s₀.ignoreList keys).map Ignored.fp → s.Listed keys fp newer 0
  ignoredBefore : ∀ ahead r behind, s₀.ignoreList keys = ahead ++ r :: behind →
    s.Listed keys r.fp (fingerprints s.ignored.log) ahead.length

/-- No call waits. -/
def Idle : Prop := s.invites.calls = [] ∧ s.ignored.calls = []

end InviteStore

end EncedoChat.Invites
