import EncedoChat.Invites.Store

/-!
# The knock desk

`KnockDesk` of `cli/knocks.ts`, with the invites that `Hub` of `cli/hub.ts` makes and withdraws over it: a call that
awaits stands in `calls` with what it has read, and goes on with a later event.
-/

namespace EncedoChat.Invites

/-- `expired(inv)` -/
def PubInvite.expired (inv : PubInvite) (now : Nat) : Bool := (inv.expires.filter (· ≠ 0)).any (· ≤ now)

structure Knock where
  n : Nat
  ik : String
  name : String
  note : String
  fp : String
  inv : PubInvite
  deriving DecidableEq

/-- What `watchInvites` is awaited for. -/
inductive Next where
  | nothing
  /-- `start` sets its timers -/
  | timers
  /-- `inviteRevoke` returns -/
  | withdrawn (id : String)
  deriving DecidableEq

inductive Call where
  /-- `start`: `waiting()` -/
  | starting
  /-- `watchInvites`: the list is read -/
  | pass (list : List PubInvite) (next : Next)
  /-- `onKnock`: the fingerprint -/
  | fingerprinting (inv : PubInvite) (ik name : String) (note : Option String)
  /-- `onKnock`: the ignore list is read -/
  | knocking (inv : PubInvite) (ik name : String) (note : Option String) (ignored : List Ignored)
  | ignoring (k : Knock) (since : Nat) (phase : Phase (List Ignored))
  | accepting (k : Knock)
  /-- `inviteNew` -/
  | creating (inv : PubInvite) (phase : Phase (List PubInvite))
  /-- `inviteRevoke` looks for its invite -/
  | finding (id : String) (list : List PubInvite)
  | revoking (id : String) (phase : Phase (List PubInvite))

/-- The desk, what the records say, and the keys of the contacts. -/
structure Desk where
  invites : List PubInvite
  ignoreList : List Ignored
  contacts : List String
  knocks : List Knock
  seq : Nat
  /-- the keys of `inboxes` -/
  inboxes : List String
  knownSaid : List String
  /-- the timers are set -/
  timers : Bool
  calls : List Call

inductive DeskEvent where
  | start
  | stop
  /-- a timer of `start` -/
  | tick
  | refresh
  /-- a knock frame on an invite -/
  | knock (inv : PubInvite) (ik name : String) (note : Option String)
  | accept (n : Nat)
  | ignore (n now : Nat)
  | inviteNew (inv : PubInvite)
  | inviteRevoke (id : String)
  /-- a call goes on; what it stores, or saves, may fail -/
  | resume (k now : Nat) (ok : Bool)
  /-- the contacts are others -/
  | contacts (pubs : List String)

/-- What a call comes to. -/
inductive Outcome where
  | knock (k : Knock)
  /-- `ignore` has resolved -/
  | ignored (k : Knock)
  /-- `inviteRevoke` has resolved -/
  | withdrawn (id : String)

def Next.outcome : Next → Option Outcome
  | .withdrawn id => some (.withdrawn id)
  | _ => none

namespace Desk

variable (fingerprint : String → String) (valid : String → Bool) (d : Desk)

/-- The rest of `watchInvites`. -/
def watchInvites (now : Nat) (list : List PubInvite) : List String :=
  let kept := d.inboxes.filter fun id => list.any fun inv => inv.id = id && !inv.expired now
  list.foldl (fun ids inv => if inv.id ∈ ids ∨ inv.expired now ∨ valid inv.secret = false then ids else ids ++ [inv.id]) kept

/-- The knock of the key on the invite is held. -/
def holds (ik id : String) : Bool := d.knocks.any fun x => x.ik = ik && x.inv.id = id

/-- The first part of `onKnock`. -/
def onKnock (inv : PubInvite) (ik name : String) (note : Option String) : Desk :=
  if d.holds ik inv.id then d
  else if ik ∈ d.contacts then
    if ik ++ inv.id ∈ d.knownSaid then d else { d with knownSaid := d.knownSaid ++ [ik ++ inv.id] }
  else { d with calls := d.calls ++ [.fingerprinting inv ik name note] }

/-- The knock that `onKnock` makes. -/
def newKnock (inv : PubInvite) (ik name : String) (note : Option String) : Knock where
  n := d.seq + 1
  ik := ik
  name := Text.take 64 (if name = "" then "bez nazwy" else name)
  note := note.getD ""
  fp := fingerprint ik
  inv := inv

/-- `take` -/
def drop (k : Knock) : Desk := { d with knocks := d.knocks.filter (· ≠ k) }

def knockOf (n : Nat) : Option Knock := d.knocks.find? (·.n = n)

/-- What a call does when it goes on, the call it then is, and what it comes to. -/
def goOn (now : Nat) (ok : Bool) : Call → Desk × Option Call × Option Outcome
  | .starting => (d, some (.pass d.invites .timers), none)
  | .pass list next =>
    -- neither a stop nor a withdrawal since the list was read is noticed
    ({ d with inboxes := d.watchInvites valid now list, timers := d.timers || next = .timers }, none,
      next.outcome)
  | .fingerprinting inv ik name note => (d, some (.knocking inv ik name note d.ignoreList), none)
  | .knocking inv ik name note ignored =>
    -- the ignore list as it was read, the knocks as they are by now
    if (ignored.any fun r => r.fp = fingerprint ik) || d.holds ik inv.id then (d, none, none)
    else
      let k := d.newKnock fingerprint inv ik name note
      ({ d with knocks := d.knocks ++ [k], seq := k.n }, none, some (.knock k))
  | .ignoring k since (.reading list) =>
    match Invites.ignore ⟨k.fp, since⟩ list with
    | none => (d, none, some (.ignored k))
    | some list => (d, some (.ignoring k since (.writing list)), none)
  | .ignoring k _ (.writing list) => (if ok then { d with ignoreList := list } else d, none, some (.ignored k))
  | .accepting k => (if ok then { d with contacts := d.contacts ++ [k.ik] } else d, none, none)
  | .creating inv (.reading list) => (d, some (.creating inv (.writing (inv :: list))), none)
  | .creating _ (.writing list) =>
    let d := if ok then { d with invites := list } else d
    (d, some (.pass d.invites .nothing), none)
  | .finding id list => (d, if list.any (·.id = id) then some (.revoking id (.reading d.invites)) else none, none)
  | .revoking id (.reading list) => (d, (changeInvites (.revoke id) list).map (.revoking id <| .writing ·), none)
  | .revoking id (.writing list) =>
    let d := if ok then { d with invites := list } else d
    (d, some (.pass d.invites (.withdrawn id)), none)

def resume (k now : Nat) (ok : Bool) : Desk × Option Outcome :=
  match d.calls[k]? with
  | none => (d, none)
  | some c =>
    let r := { d with calls := d.calls.eraseIdx k }.goOn fingerprint valid now ok c
    ({ r.1 with calls := r.1.calls ++ r.2.1.toList }, r.2.2)

def call (c : Call) : Desk := { d with calls := d.calls ++ [c] }

def step : DeskEvent → Desk × Option Outcome
  | .start => (d.call .starting, none)
  | .stop => ({ d with timers := false, inboxes := [] }, none)
  | .tick => (if d.timers then d.call (.pass d.invites .nothing) else d, none)
  | .refresh => (d.call (.pass d.invites .nothing), none)
  | .knock inv ik name note => (d.onKnock inv ik name note, none)
  | .accept n => ((d.knockOf n).elim d fun k => (d.drop k).call (.accepting k), none)
  | .ignore n now => ((d.knockOf n).elim d fun k => (d.drop k).call (.ignoring k now (.reading d.ignoreList)), none)
  | .inviteNew inv => (d.call (.creating inv (.reading d.invites)), none)
  | .inviteRevoke id => (d.call (.finding id d.invites), none)
  | .resume k now ok => d.resume fingerprint valid k now ok
  | .contacts pubs => ({ d with contacts := pubs }, none)

end Desk

/-! ## What is said of the desk -/

/-- A desk, the knocks whose `ignore` has resolved, the invites whose withdrawal has, the knocks that were surfaced of a
key ignored before, and whether `stop` was called since `start`. -/
structure DeskTrial where
  desk : Desk
  ignored : List Knock
  withdrawn : List String
  late : List Knock
  stopped : Bool

namespace DeskTrial

variable (fingerprint : String → String) (valid : String → Bool) (t : DeskTrial)

/-- A desk that has not been started, over the records that it finds. -/
def opened (invites : List PubInvite) (ignoreList : List Ignored) (contacts : List String) : DeskTrial :=
  ⟨⟨invites, ignoreList, contacts, [], 0, [], [], false, []⟩, [], [], [], false⟩

def note : Option Outcome → DeskTrial
  | none => t
  | some (.knock k) => if t.ignored.any (·.ik = k.ik) then { t with late := k :: t.late } else t
  | some (.ignored k) => { t with ignored := k :: t.ignored }
  | some (.withdrawn id) => { t with withdrawn := id :: t.withdrawn }

def stoppedAfter : DeskEvent → Bool
  | .start => false
  | .stop => true
  | _ => t.stopped

def step (e : DeskEvent) : DeskTrial :=
  let r := t.desk.step fingerprint valid e
  ({ t with desk := r.1, stopped := t.stoppedAfter e } : DeskTrial).note r.2

def run (t : DeskTrial) (es : List DeskEvent) : DeskTrial := es.foldl (step fingerprint valid) t

structure Sound : Prop where
  one : (t.desk.knocks.map fun k => (k.ik, k.inv.id)).Nodup
  quiet : t.late = []
  held : ∀ k ∈ t.ignored, t.desk.holds k.ik k.inv.id = false
  withdrawn : ∀ id ∈ t.withdrawn, id ∉ t.desk.inboxes
  stopped : t.stopped = true → t.desk.inboxes = []

/-- A call goes on with what still stands: a pass with a list of which it would listen on no invite that was withdrawn,
nor on any once the desk has stopped; a knock with an ignore list that has its key, if that was ignored; and `ignore`
resolves where no other knock of the key on that invite has come. -/
def ClearCall (now : Nat) : Call → Prop
  | .pass list next => ∀ inv ∈ list, inv.expired now = false → (valid inv.secret = true ∨ inv.id ∈ t.desk.inboxes) →
      t.stopped = false ∧ inv.id ∉ t.withdrawn ∧ next ≠ .withdrawn inv.id
  | .knocking inv ik _ _ ignored => (ignored.any fun r => r.fp = fingerprint ik) = false →
      t.desk.holds ik inv.id = false → ∀ k ∈ t.ignored, k.ik ≠ ik
  | .ignoring k _ (.reading list) => k.fp ∈ list.map Ignored.fp → t.desk.holds k.ik k.inv.id = false
  | .ignoring k _ (.writing _) => t.desk.holds k.ik k.inv.id = false
  | _ => True

def Clear : DeskEvent → Prop
  | .resume k now _ => ∀ c, t.desk.calls[k]? = some c → t.ClearCall fingerprint valid now c
  | _ => True

end DeskTrial

namespace Desk

variable {fingerprint : String → String} {valid : String → Bool} {d : Desk}

/-! ## What a pass listens on -/

theorem mem_listen {now : Nat} {list : List PubInvite} {ids : List String} {id : String} :
    id ∈ list.foldl (fun ids inv =>
        if inv.id ∈ ids ∨ inv.expired now ∨ valid inv.secret = false then ids else ids ++ [inv.id]) ids ↔
      id ∈ ids ∨ ∃ inv ∈ list, inv.id = id ∧ inv.expired now = false ∧ valid inv.secret = true := by
  induction list generalizing ids with
  | nil => simp
  | cons inv list ih =>
      rw [List.foldl_cons, ih, List.exists_mem_cons_iff]
      split
      case isTrue hskip =>
        constructor
        · exact Or.imp_right .inr
        · rintro (hin | ⟨rfl, hlive, hvalid⟩ | hrest)
          · exact .inl hin
          · rcases hskip with hin | hexp | hbad
            · exact .inl hin
            · rw [hlive] at hexp
              cases hexp
            · rw [hvalid] at hbad
              cases hbad
          · exact .inr hrest
      case isFalse hnew =>
        rw [not_or, not_or, Bool.not_eq_true, Bool.not_eq_false] at hnew
        rw [List.mem_append, List.mem_singleton, or_assoc]
        refine or_congr_right (or_congr_left ?_)
        exact ⟨fun h => ⟨h.symm, hnew.2⟩, fun h => h.1.symm⟩

theorem mem_watchInvites {now : Nat} {list : List PubInvite} {id : String} : id ∈ d.watchInvites valid now list ↔
    ∃ inv ∈ list, inv.id = id ∧ inv.expired now = false ∧ (valid inv.secret = true ∨ id ∈ d.inboxes) := by
  rw [watchInvites, mem_listen, List.mem_filter, List.any_eq_true]
  constructor
  · rintro (⟨hin, inv, hinv, hlive⟩ | ⟨inv, hinv, heq, hlive, hvalid⟩)
    · rw [Bool.and_eq_true, decide_eq_true_eq, Bool.not_eq_true'] at hlive
      exact ⟨inv, hinv, hlive.1, hlive.2, .inr hin⟩
    · exact ⟨inv, hinv, heq, hlive, .inl hvalid⟩
  · rintro ⟨inv, hinv, heq, hlive, hvalid | hin⟩
    · exact .inr ⟨inv, hinv, heq, hlive, hvalid⟩
    · exact .inl ⟨hin, inv, hinv, by simp [heq, hlive]⟩

theorem holds_eq_false {ik id : String} : d.holds ik id = false ↔ (ik, id) ∉ d.knocks.map fun k => (k.ik, k.inv.id) := by
  rw [holds, List.any_eq_false, List.mem_map, not_exists]
  refine forall_congr' fun k => ?_
  rw [not_and, Bool.and_eq_true, decide_eq_true_eq, decide_eq_true_eq, Prod.mk.injEq]

/-! ## What a step does -/

/-- What becomes of the knocks and the inboxes when a call goes on, and what it comes to. -/
inductive Came (fingerprint : String → String) (valid : String → Bool) (d d' : Desk) (now : Nat) (c : Call) :
    Option Outcome → Prop
  | quiet : d'.knocks = d.knocks → d'.inboxes = d.inboxes → Came fingerprint valid d d' now c none
  | pass (list : List PubInvite) (next : Next) : c = .pass list next → d'.knocks = d.knocks →
      d'.inboxes = d.watchInvites valid now list → Came fingerprint valid d d' now c next.outcome
  | knock (inv : PubInvite) (ik name : String) (note : Option String) (ignored : List Ignored) (k : Knock) :
      c = .knocking inv ik name note ignored → (ignored.any fun r => r.fp = fingerprint ik) = false →
      d.holds ik inv.id = false → k.ik = ik → k.inv = inv → d'.knocks = d.knocks ++ [k] → d'.inboxes = d.inboxes →
      Came fingerprint valid d d' now c (some (.knock k))
  | ignored (k : Knock) (since : Nat) (phase : Phase (List Ignored)) : c = .ignoring k since phase →
      (∀ list, phase = .reading list → k.fp ∈ list.map Ignored.fp) → d'.knocks = d.knocks → d'.inboxes = d.inboxes →
      Came fingerprint valid d d' now c (some (.ignored k))

variable (fingerprint valid) in
theorem goOn_came (now : Nat) (ok : Bool) (c : Call) : Came fingerprint valid d (d.goOn fingerprint valid now ok c).1 now c
    (d.goOn fingerprint valid now ok c).2.2 := by
  cases c with
  | starting => exact .quiet rfl rfl
  | pass list next => exact .pass list next rfl rfl rfl
  | fingerprinting inv ik name note => exact .quiet rfl rfl
  | knocking inv ik name note ignored =>
      rw [goOn]
      split
      · exact .quiet rfl rfl
      case isFalse hnew =>
        rw [Bool.or_eq_true, not_or, Bool.not_eq_true, Bool.not_eq_true] at hnew
        exact .knock inv ik name note ignored _ rfl hnew.1 hnew.2 rfl rfl rfl rfl
  | ignoring k since phase =>
      cases phase with
      | reading list =>
          rw [goOn, Invites.ignore]
          split
          case h_1 hnone =>
            refine .ignored k since _ rfl (fun list' heq => ?_) rfl rfl
            obtain rfl := Phase.reading.inj heq
            split at hnone
            case isTrue hany =>
              obtain ⟨r, hr, hfp⟩ := List.any_eq_true.mp hany
              exact List.mem_map.mpr ⟨r, hr, of_decide_eq_true hfp⟩
            · cases hnone
          · exact .quiet rfl rfl
      | writing list => cases ok <;> exact .ignored k since _ rfl (fun _ heq => by cases heq) rfl rfl
  | accepting k => cases ok <;> exact .quiet rfl rfl
  | creating inv phase =>
      cases phase with
      | reading list => exact .quiet rfl rfl
      | writing list => cases ok <;> exact .quiet rfl rfl
  | finding id list => exact .quiet rfl rfl
  | revoking id phase =>
      cases phase with
      | reading list => exact .quiet rfl rfl
      | writing list => cases ok <;> exact .quiet rfl rfl

variable (fingerprint valid) in
theorem resume_came {k : Nat} {c : Call} (hc : d.calls[k]? = some c) (now : Nat) (ok : Bool) :
    Came fingerprint valid d (d.resume fingerprint valid k now ok).1 now c (d.resume fingerprint valid k now ok).2 := by
  have hcame := goOn_came fingerprint valid (d := { d with calls := d.calls.eraseIdx k }) now ok c
  unfold resume
  rw [hc]
  dsimp only
  generalize ({ d with calls := d.calls.eraseIdx k }.goOn fingerprint valid now ok c).2.2 = outcome at hcame ⊢
  cases hcame with
  | quiet hknocks hinboxes => exact .quiet hknocks hinboxes
  | pass list next heq hknocks hinboxes => exact .pass list next heq hknocks hinboxes
  | knock inv ik name note ignored k heq hlist hnew hik hinv hknocks hinboxes =>
      exact .knock inv ik name note ignored k heq hlist hnew hik hinv hknocks hinboxes
  | ignored k since phase heq hlist hknocks hinboxes => exact .ignored k since phase heq hlist hknocks hinboxes

variable (fingerprint valid) in
theorem step_quiet {e : DeskEvent} (he : ∀ k now ok, e ≠ .resume k now ok) :
    (d.step fingerprint valid e).2 = none ∧ (d.step fingerprint valid e).1.knocks.Sublist d.knocks ∧
      ((d.step fingerprint valid e).1.inboxes = d.inboxes ∨ (d.step fingerprint valid e).1.inboxes = []) := by
  have htake : ∀ n (c : Knock → Call), ((d.knockOf n).elim d fun k => (d.drop k).call (c k)).knocks.Sublist d.knocks ∧
      ((d.knockOf n).elim d fun k => (d.drop k).call (c k)).inboxes = d.inboxes := by
    intro n c
    cases d.knockOf n with
    | none => exact ⟨List.Sublist.refl _, rfl⟩
    | some k => exact ⟨List.filter_sublist, rfl⟩
  cases e with
  | start => exact ⟨rfl, List.Sublist.refl _, .inl rfl⟩
  | stop => exact ⟨rfl, List.Sublist.refl _, .inr rfl⟩
  | tick =>
      rw [step]
      split <;> exact ⟨rfl, List.Sublist.refl _, .inl rfl⟩
  | refresh => exact ⟨rfl, List.Sublist.refl _, .inl rfl⟩
  | knock inv ik name note =>
      rw [step, onKnock]
      split
      · exact ⟨rfl, List.Sublist.refl _, .inl rfl⟩
      · split
        · split <;> exact ⟨rfl, List.Sublist.refl _, .inl rfl⟩
        · exact ⟨rfl, List.Sublist.refl _, .inl rfl⟩
  | accept n => exact ⟨rfl, (htake n _).1, .inl (htake n _).2⟩
  | ignore n now => exact ⟨rfl, (htake n _).1, .inl (htake n _).2⟩
  | inviteNew inv => exact ⟨rfl, List.Sublist.refl _, .inl rfl⟩
  | inviteRevoke id => exact ⟨rfl, List.Sublist.refl _, .inl rfl⟩
  | resume k now ok => exact absurd rfl (he k now ok)
  | contacts pubs => exact ⟨rfl, List.Sublist.refl _, .inl rfl⟩

end Desk

namespace DeskTrial

variable {fingerprint : String → String} {valid : String → Bool} {t : DeskTrial}

theorem sound_quiet (h : t.Sound) {e : DeskEvent} (he : ∀ k now ok, e ≠ .resume k now ok) :
    (t.step fingerprint valid e).Sound := by
  obtain ⟨hnone, hknocks, hinboxes⟩ := Desk.step_quiet fingerprint valid (d := t.desk) he
  unfold step
  dsimp only
  rw [hnone, note]
  refine ⟨(hknocks.map _).nodup h.one, h.quiet, fun k hk => ?_, fun id hid => ?_, ?_⟩
  · have hheld := Desk.holds_eq_false.mp (h.held k hk)
    exact Desk.holds_eq_false.mpr fun hin => hheld ((hknocks.map _).subset hin)
  · rcases hinboxes with heq | heq <;> dsimp only <;> rw [heq]
    · exact h.withdrawn id hid
    · exact List.not_mem_nil
  · have hold : t.stopped = true → (t.desk.step fingerprint valid e).1.inboxes = [] := fun hs =>
      hinboxes.elim (fun heq => heq.trans (h.stopped hs)) id
    cases e with
    | start =>
        intro hs
        cases hs
    | stop => exact fun _ => rfl
    | _ => exact hold

theorem holds_congr {d d' : Desk} (h : d'.knocks = d.knocks) (ik id : String) : d'.holds ik id = d.holds ik id := by
  rw [Desk.holds, h, Desk.holds]

theorem Sound.same (h : t.Sound) {d : Desk} (hknocks : d.knocks = t.desk.knocks) (hinboxes : d.inboxes = t.desk.inboxes) :
    Sound { t with desk := d } where
  one := by
    dsimp only
    rw [hknocks]
    exact h.one
  quiet := h.quiet
  held k hk := (holds_congr hknocks _ _).trans (h.held k hk)
  withdrawn := by
    dsimp only
    rw [hinboxes]
    exact h.withdrawn
  stopped := by
    dsimp only
    rw [hinboxes]
    exact h.stopped

theorem Sound.pass (h : t.Sound) {d : Desk} {now : Nat} {list : List PubInvite} {next : Next}
    (hclear : t.ClearCall fingerprint valid now (.pass list next)) (hknocks : d.knocks = t.desk.knocks)
    (hinboxes : d.inboxes = t.desk.watchInvites valid now list) :
    (note ({ t with desk := d } : DeskTrial) next.outcome).Sound := by
  have hlisten : ∀ id ∈ d.inboxes, t.stopped = false ∧ id ∉ t.withdrawn ∧ next ≠ .withdrawn id := by
    intro id hid
    rw [hinboxes, Desk.mem_watchInvites] at hid
    obtain ⟨inv, hinv, rfl, hlive, hgood⟩ := hid
    exact hclear inv hinv hlive hgood
  have hstopped : t.stopped = true → d.inboxes = [] := by
    intro hs
    refine List.eq_nil_iff_forall_not_mem.mpr fun id hid => ?_
    rw [(hlisten id hid).1] at hs
    cases hs
  have hone : (d.knocks.map fun k => (k.ik, k.inv.id)).Nodup := hknocks ▸ h.one
  have hheld : ∀ k ∈ t.ignored, d.holds k.ik k.inv.id = false :=
    fun k hk => (holds_congr hknocks _ _).trans (h.held k hk)
  have hgone : ∀ id ∈ t.withdrawn, id ∉ d.inboxes := fun id hid hin => (hlisten id hin).2.1 hid
  cases next with
  | nothing => exact ⟨hone, h.quiet, hheld, hgone, hstopped⟩
  | timers => exact ⟨hone, h.quiet, hheld, hgone, hstopped⟩
  | withdrawn id =>
      refine ⟨hone, h.quiet, hheld, ?_, hstopped⟩
      exact List.forall_mem_cons.mpr ⟨fun hin => (hlisten id hin).2.2 rfl, hgone⟩

theorem Sound.knock (h : t.Sound) {d : Desk} {k : Knock} (hnew : t.desk.holds k.ik k.inv.id = false)
    (hno : ∀ x ∈ t.ignored, x.ik ≠ k.ik) (hknocks : d.knocks = t.desk.knocks ++ [k])
    (hinboxes : d.inboxes = t.desk.inboxes) : (note ({ t with desk := d } : DeskTrial) (some (.knock k))).Sound := by
  have hany : t.ignored.any (·.ik = k.ik) = false := List.any_eq_false.mpr fun x hx => by
    rw [decide_eq_true_eq]
    exact hno x hx
  have hone : (d.knocks.map fun k => (k.ik, k.inv.id)).Nodup := by
    rw [hknocks, List.map_append, List.map_singleton]
    refine List.nodup_append.mpr ⟨h.one, List.pairwise_singleton _ _, fun x hx y hy heq => ?_⟩
    rw [List.mem_singleton.mp hy] at heq
    exact Desk.holds_eq_false.mp hnew (heq ▸ hx)
  have hheld : ∀ x ∈ t.ignored, d.holds x.ik x.inv.id = false := by
    intro x hx
    have hbefore := h.held x hx
    rw [Desk.holds] at hbefore
    rw [Desk.holds, hknocks, List.any_append, hbefore, Bool.false_or, List.any_cons, List.any_nil, Bool.or_false]
    simp [Ne.symm (hno x hx)]
  rw [note, if_neg (by simp [hany])]
  refine ⟨hone, h.quiet, hheld, ?_, ?_⟩
  · dsimp only
    rw [hinboxes]
    exact h.withdrawn
  · dsimp only
    rw [hinboxes]
    exact h.stopped

theorem sound_resume (h : t.Sound) {k now : Nat} {ok : Bool} (hclear : t.Clear fingerprint valid (.resume k now ok)) :
    (t.step fingerprint valid (.resume k now ok)).Sound := by
  unfold step stoppedAfter
  dsimp only
  cases hc : t.desk.calls[k]? with
  | none =>
      have hstep : t.desk.step fingerprint valid (.resume k now ok) = (t.desk, none) := by rw [Desk.step, Desk.resume, hc]
      rw [hstep]
      exact h
  | some c =>
      have hcall := hclear c hc
      have hcame := Desk.resume_came fingerprint valid hc now ok
      rw [Desk.step]
      generalize (t.desk.resume fingerprint valid k now ok).2 = outcome at hcame ⊢
      generalize (t.desk.resume fingerprint valid k now ok).1 = d at hcame ⊢
      cases hcame with
      | quiet hknocks hinboxes => exact h.same hknocks hinboxes
      | pass list next heq hknocks hinboxes =>
          subst heq
          exact h.pass hcall hknocks hinboxes
      | knock inv ik name note' ignored k heq hlist hnew hik hinv hknocks hinboxes =>
          subst heq hik hinv
          exact h.knock hnew (hcall hlist hnew) hknocks hinboxes
      | ignored k since phase heq hlist hknocks hinboxes =>
          subst heq
          have hsame := h.same hknocks hinboxes
          have hfree : t.desk.holds k.ik k.inv.id = false := by
            cases phase with
            | reading list => exact hcall (hlist list rfl)
            | writing list => exact hcall
          refine ⟨hsame.one, h.quiet, ?_, hsame.withdrawn, hsame.stopped⟩
          exact List.forall_mem_cons.mpr ⟨(holds_congr hknocks _ _).trans hfree, hsame.held⟩

theorem sound_step (h : t.Sound) (e : DeskEvent) (hclear : t.Clear fingerprint valid e) :
    (t.step fingerprint valid e).Sound := by
  cases e with
  | resume k now ok => exact sound_resume h hclear
  | _ => exact sound_quiet h fun _ _ _ heq => by cases heq

variable (fingerprint valid) in
theorem resume_pass {d : Desk} {k : Nat} {list : List PubInvite} {next : Next} (hc : d.calls[k]? = some (.pass list next))
    (now : Nat) (ok : Bool) : (d.resume fingerprint valid k now ok).1.inboxes = d.watchInvites valid now list ∧
      (d.resume fingerprint valid k now ok).2 = next.outcome := by
  unfold Desk.resume
  rw [hc]
  exact ⟨rfl, rfl⟩

theorem resume_knocking {d : Desk} {k : Nat} {inv : PubInvite} {ik name : String} {note : Option String}
    {ignored : List Ignored} (hc : d.calls[k]? = some (.knocking inv ik name note ignored))
    (hlist : (ignored.any fun r => r.fp = fingerprint ik) = false) (hnew : d.holds ik inv.id = false) (now : Nat) (ok : Bool) :
    (d.resume fingerprint valid k now ok).2 = some (.knock (d.newKnock fingerprint inv ik name note)) := by
  have hfree : ({ d with calls := d.calls.eraseIdx k } : Desk).holds ik inv.id = false := hnew
  unfold Desk.resume
  rw [hc]
  dsimp only [Desk.goOn]
  rw [hlist, hfree]
  rfl

variable (fingerprint valid) in
theorem resume_ignoring {d : Desk} {k : Nat} {x : Knock} {since : Nat} {phase : Phase (List Ignored)}
    (hc : d.calls[k]? = some (.ignoring x since phase))
    (hphase : ∀ list, phase = .reading list → x.fp ∈ list.map Ignored.fp) (now : Nat) (ok : Bool) :
    (d.resume fingerprint valid k now ok).2 = some (.ignored x) ∧
      (d.resume fingerprint valid k now ok).1.knocks = d.knocks := by
  unfold Desk.resume
  rw [hc]
  cases phase with
  | reading list =>
      have hany : (list.any fun r => r.fp = x.fp) = true := by
        obtain ⟨r, hr, heq⟩ := List.mem_map.mp (hphase list rfl)
        exact List.any_eq_true.mpr ⟨r, hr, decide_eq_true heq⟩
      have hnone : Invites.ignore ⟨x.fp, since⟩ list = none := by rw [Invites.ignore, if_pos hany]
      dsimp only [Desk.goOn]
      rw [hnone]
      exact ⟨rfl, rfl⟩
  | writing list => cases ok <;> exact ⟨rfl, rfl⟩

/-- What is not clear is seen at once. -/
theorem clear_of_sound (e : DeskEvent) (hs : (t.step fingerprint valid e).Sound) : t.Clear fingerprint valid e := by
  cases e with
  | resume k now ok =>
      intro c hc
      unfold step stoppedAfter at hs
      dsimp only [Desk.step] at hs
      cases c with
      | pass list next =>
          obtain ⟨hinboxes, hout⟩ := resume_pass fingerprint valid hc now ok
          intro inv hinv hlive hgood
          have hin : inv.id ∈ (t.desk.resume fingerprint valid k now ok).1.inboxes := by
            rw [hinboxes]
            exact Desk.mem_watchInvites.mpr ⟨inv, hinv, rfl, hlive, hgood⟩
          rw [hout] at hs
          have hstopped : t.stopped = false := by
            rw [← Bool.not_eq_true]
            intro hst
            have hempty : (t.desk.resume fingerprint valid k now ok).1.inboxes = [] := by
              cases next <;> exact hs.stopped hst
            rw [hempty] at hin
            cases hin
          cases next with
          | nothing => exact ⟨hstopped, fun hw => hs.withdrawn _ hw hin, fun h => by cases h⟩
          | timers => exact ⟨hstopped, fun hw => hs.withdrawn _ hw hin, fun h => by cases h⟩
          | withdrawn id =>
              refine ⟨hstopped, fun hw => hs.withdrawn _ (List.mem_cons_of_mem _ hw) hin, fun h => ?_⟩
              obtain rfl := Next.withdrawn.inj h
              exact hs.withdrawn _ (List.mem_cons_self ..) hin
      | knocking inv ik name note ignored =>
          intro hlist hnew x hx hik
          rw [resume_knocking hc hlist hnew, DeskTrial.note] at hs
          have hany : (t.ignored.any fun y => y.ik = (t.desk.newKnock fingerprint inv ik name note).ik) = true :=
            List.any_eq_true.mpr ⟨x, hx, decide_eq_true hik⟩
          rw [if_pos hany] at hs
          have hquiet := hs.quiet
          cases hquiet
      | ignoring x since phase =>
          have hfree : (∀ list, phase = .reading list → x.fp ∈ list.map Ignored.fp) → t.desk.holds x.ik x.inv.id = false := by
            intro hphase
            obtain ⟨hout, hknocks⟩ := resume_ignoring fingerprint valid hc hphase now ok
            rw [hout] at hs
            have hheld := hs.held x (List.mem_cons_self ..)
            rwa [DeskTrial.note, Desk.holds, hknocks] at hheld
          cases phase with
          | reading list => exact fun hin => hfree fun list' heq => Phase.reading.inj heq ▸ hin
          | writing list => exact hfree fun _ heq => by cases heq
      | _ => trivial
  | _ => trivial

end DeskTrial

def sampleInvite : PubInvite := ⟨"i", "zaproszenie", "s", 0, none⟩

def sampleDesk (es : List DeskEvent) : DeskTrial := DeskTrial.run id (fun _ => true) (.opened [sampleInvite] [] []) es

/-- A second knock reads the ignore list while the first is being ignored. -/
def knockedAgain : List DeskEvent :=
  [.knock sampleInvite "k" "a" none, .resume 0 0 true, .resume 0 0 true, .ignore 1 0, .knock sampleInvite "k" "a" none,
    .resume 1 0 true, .resume 0 0 true, .resume 1 0 true, .resume 0 0 true]

/-- A pass reads the list, and goes on once its invite was withdrawn. -/
def withdrawnMeanwhile : List DeskEvent :=
  [.refresh, .inviteRevoke "i", .resume 1 0 true, .resume 1 0 true, .resume 1 0 true, .resume 1 0 true, .resume 0 0 true]

end EncedoChat.Invites
