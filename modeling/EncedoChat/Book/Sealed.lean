import Mathlib.Logic.Basic
import EncedoChat.Lib.Run

/-!
# The local contact book

`localContactBook` of `lib/core.ts` over a list that is kept in memory, as `openLocalBook` of `lib/localbook.ts` gives it.
Each operation reads the list and saves another one at once.
-/

namespace EncedoChat.Book

structure Entry where
  name : String
  pub : String
  deriving DecidableEq

/-- An operation of the book; `remove` and `rename` are given a contact, as `list` returned it at some time. -/
inductive Op where
  | add (name pub : String)
  | remove (c : Entry)
  | rename (c : Entry) (name : String)

namespace Op

def saved (list : List Entry) : Op → List Entry
  | add name pub => list.filter (·.name ≠ name) ++ [⟨name, pub⟩]
  | remove c => list.filter (·.name ≠ c.name)
  | rename c name => list.map fun x => if x.pub = c.pub then { x with name := name } else x

/-- The key that it is about. -/
def pub : Op → String
  | add _ pub => pub
  | remove c => c.pub
  | rename c _ => c.pub

end Op

/-- The list in memory, and whether `save` throws: a book that failed its check has no list. -/
structure LocalBook where
  list : List Entry
  tampered : Bool
  empty : tampered = true → list = []

namespace LocalBook

def save (b : LocalBook) (list : List Entry) : LocalBook :=
  if h : b.tampered = true then b else { b with list := list, empty := fun ht => absurd ht h }

def act (b : LocalBook) (op : Op) : LocalBook := b.save (op.saved b.list)

theorem act_list (b : LocalBook) (op : Op) : (b.act op).list = if b.tampered = true then [] else op.saved b.list := by
  unfold act save
  split
  case isTrue h => exact b.empty h
  · rfl

/-- The entries of other keys stay as they are and where they are, and none of the key that is removed. -/
structure Lawful (b : LocalBook) (op : Op) : Prop where
  others : (b.act op).list.filter (·.pub ≠ op.pub) = b.list.filter (·.pub ≠ op.pub)
  removed : ∀ c, op = .remove c → ∀ e ∈ (b.act op).list, e.pub ≠ c.pub

/-- No two contacts have the name in question: one that is added has it from none of another key, one that is removed has it
in all of its entries and shares it with none of another key. -/
def Apart (b : LocalBook) : Op → Prop
  | .add name pub => ∀ e ∈ b.list, e.name = name → e.pub = pub
  | .remove c => ∀ e ∈ b.list, e.name = c.name ↔ e.pub = c.pub
  | .rename _ _ => True

/-! ## What an operation leaves of other keys -/

/-- Entries that are dropped are none of those looked at. -/
theorem filter_dropped {p q : Entry → Bool} {list : List Entry} :
    (list.filter q).filter p = list.filter p ↔ ∀ e ∈ list, p e = true → q e = true := by
  have hcomm : (list.filter q).filter p = (list.filter p).filter q := by
    simp only [List.filter_filter, Bool.and_comm]
  rw [hcomm, List.filter_eq_self]
  simp only [List.mem_filter, and_imp]

theorem others_add {list : List Entry} {name pub : String} :
    ((Op.add name pub).saved list).filter (·.pub ≠ pub) = list.filter (·.pub ≠ pub) ↔
      ∀ e ∈ list, e.name = name → e.pub = pub := by
  have hnone : [(⟨name, pub⟩ : Entry)].filter (·.pub ≠ pub) = [] := by simp
  rw [Op.saved, List.filter_append, hnone, List.append_nil, filter_dropped]
  simp only [ne_eq, decide_eq_true_eq]
  exact forall₂_congr fun e _ => not_imp_not

theorem others_remove {list : List Entry} {c : Entry} :
    ((Op.remove c).saved list).filter (·.pub ≠ c.pub) = list.filter (·.pub ≠ c.pub) ↔
      ∀ e ∈ list, e.name = c.name → e.pub = c.pub := by
  rw [Op.saved, filter_dropped]
  simp only [ne_eq, decide_eq_true_eq]
  exact forall₂_congr fun e _ => not_imp_not

theorem removed_remove {list : List Entry} {c : Entry} :
    (∀ e ∈ (Op.remove c).saved list, e.pub ≠ c.pub) ↔ ∀ e ∈ list, e.pub = c.pub → e.name = c.name := by
  simp only [Op.saved, List.mem_filter, ne_eq, decide_eq_true_eq, and_imp]
  exact forall₂_congr fun e _ => by rw [not_imp_not]

/-- A new name for the entries of one key. -/
theorem others_rename (list : List Entry) (c : Entry) (name : String) :
    ((Op.rename c name).saved list).filter (·.pub ≠ c.pub) = list.filter (·.pub ≠ c.pub) := by
  rw [Op.saved]
  induction list with
  | nil => rfl
  | cons e list ih =>
      rw [List.map_cons]
      by_cases he : e.pub = c.pub
      · rw [if_pos he, List.filter_cons_of_neg (by simpa using he), List.filter_cons_of_neg (by simpa using he), ih]
      · rw [if_neg he, List.filter_cons_of_pos (by simpa using he), List.filter_cons_of_pos (by simpa using he), ih]

theorem lawful_iff (b : LocalBook) (op : Op) : b.Lawful op ↔ b.Apart op := by
  by_cases ht : b.tampered = true
  · -- nothing is there, and nothing is saved
    have hlist := b.empty ht
    have hact : (b.act op).list = [] := by rw [act_list, if_pos ht]
    constructor
    · intro _
      cases op <;> simp [Apart, hlist]
    · intro _
      exact ⟨by rw [hact, hlist], fun _ _ e he => by simp [hact] at he⟩
  · have hact : (b.act op).list = op.saved b.list := by rw [act_list, if_neg ht]
    cases op with
    | add name pub =>
        refine ⟨fun h => others_add.mp (hact ▸ h.others), fun h => ⟨?_, nofun⟩⟩
        rw [hact]
        exact others_add.mpr h
    | remove c =>
        constructor
        · intro h e he
          have hremoved := h.removed c rfl
          rw [hact] at hremoved
          exact ⟨others_remove.mp (hact ▸ h.others) e he, removed_remove.mp hremoved e he⟩
        · intro h
          refine ⟨?_, ?_⟩
          · rw [hact]
            exact others_remove.mpr fun e he => (h e he).mp
          · rintro _ ⟨⟩
            rw [hact]
            exact removed_remove.mpr fun e he => (h e he).mpr
    | rename c name =>
        refine ⟨fun _ => trivial, fun _ => ⟨?_, nofun⟩⟩
        rw [hact]
        exact others_rename b.list c name

/-- Along a sequence of operations each is about its own contact exactly when each finds the names apart. -/
theorem operations_lawful (b : LocalBook) (ops : List Op) : Admits act Lawful b ops ↔ Admits act Apart b ops :=
  Admits.congr lawful_iff b ops

/-! ## Equal names -/

def sample : LocalBook := ⟨[⟨"A", "keyA"⟩, ⟨"B", "keyB"⟩], false, nofun⟩

/-- A contact is added under the name of another, which is gone; a contact gets the name of another, and is removed with
it. -/
theorem operations_mixed : ¬ Admits act Lawful sample [.add "A" "keyC"] ∧
    ¬ Admits act Lawful sample [.rename ⟨"A", "keyA"⟩ "B", .remove ⟨"B", "keyB"⟩] := by
  constructor
  · rintro ⟨⟨hothers, -⟩, -⟩
    exact absurd hothers (by decide)
  · rintro ⟨-, ⟨hothers, -⟩, -⟩
    exact absurd hothers (by decide)

end LocalBook

end EncedoChat.Book

/-!
# The stored contact book

`openLocalBook` of `lib/localbook.ts` and `checkBook` of `lib/bookmac.ts`, for an identity that has its cache base: three
formats of one record, a marker that a protected one has been written, and the chain of writes of a session.
-/

namespace EncedoChat.Book

/-- What a stored text reads as. -/
inductive View (Ct Mac Body : Type) where
  /-- a JSON array -/
  | array (list : List Entry)
  /-- a JSON object with the strings `mac` and `body` -/
  | packing (mac : Mac) (body : Body)
  /-- another JSON object -/
  | object
  /-- anything else, as base64 of a blob -/
  | blob (ct : Option Ct)
  deriving DecidableEq

structure Format (T Ct Mac Body : Type) where
  view : T → View Ct Mac Body
  /-- `JSON.parse(body)`, where it is an array -/
  parse : Body → Option (List Entry)
  sealedText : Ct → T
  view_sealedText : ∀ ct, view (sealedText ct) = .blob (some ct)

/-- Under the identity's base and KID. -/
structure Keyed (Ct Mac Body : Type) where
  openLocal : Ct → Option (List Entry)
  verify : Mac → Body → Bool

inductive Verdict where
  | ok
  | unsigned
  | tampered
  deriving DecidableEq

variable {T Ct Mac Body : Type}

namespace Format

variable (F : Format T Ct Mac Body) (K : Keyed Ct Mac Body)

/-- The list of the body, and what is to verify. -/
def unpack : Option T → List Entry × Option (Mac × Body)
  | none => ([], none)
  | some t =>
    match F.view t with
    | .array list => (list, none)
    | .packing mac body => ((F.parse body).getD [], some (mac, body))
    | _ => ([], none)

def checkBook (raw : Option T) : Verdict × List Entry :=
  match F.unpack raw with
  | (list, none) => (.unsigned, list)
  | (list, some (mac, body)) => (if K.verify mac body then .ok else .tampered, list)

structure Opened where
  verdict : Verdict
  list : List Entry
  /-- it is to be sealed at once -/
  migrate : Bool
  /-- only the marker is missing -/
  mark : Bool

def openLocalBook (raw : Option T) (marked : Bool) : Opened :=
  match raw.map F.view with
  | some (.blob ct) =>
    match ct.bind K.openLocal with
    | some list => ⟨.ok, list, false, !marked⟩
    | none => ⟨.tampered, [], false, false⟩
  | _ =>
    let checked := F.checkBook K raw
    let verdict := if checked.1 = .unsigned ∧ marked = true then .tampered else checked.1
    if verdict = .tampered then ⟨.tampered, [], false, false⟩ else ⟨verdict, checked.2, raw.isSome, false⟩

end Format

/-- A list on its way to the store, with its number among all of them. -/
abbrev Snapshot := Nat × List Entry

structure Session where
  verdict : Verdict
  list : List Entry
  /-- `chain` -/
  pending : List Snapshot

/-- The stored texts, the identity's session, and what has been: the texts that the identity wrote with their lists, the
newest first, the lists that were to be written and those that were, in their order. -/
structure World (T : Type) where
  book : Option T
  marked : Bool
  session : Option Session
  writes : List (T × List Entry)
  made : List Snapshot
  landed : List Snapshot

inductive Outcome where
  | failed
  /-- the book is stored, the marker not -/
  | unmarked
  | stored

inductive Event (T Ct : Type) where
  | signIn
  | edit (op : Op)
  /-- the first write of the chain comes to its end, with what it sealed -/
  | land (ct : Ct) (outcome : Outcome)
  /-- somebody else stores a text, or sets the marker -/
  | attack (t : T)
  | mark

namespace World

variable [DecidableEq Ct] [DecidableEq Mac] [DecidableEq Body] (F : Format T Ct Mac Body) (w : World T)

/-- Sealing and MAC are ideal: what opens and what verifies is what the identity wrote. -/
def keyed : Keyed Ct Mac Body where
  openLocal ct := (w.writes.find? fun x => F.view x.1 = .blob (some ct)).map Prod.snd
  verify mac body := w.writes.any fun x => F.view x.1 = .packing mac body

def opened : Format.Opened := F.openLocalBook (w.keyed F) w.book w.marked

/-- A page that is loaded; what the session before it had not stored is lost. -/
def signIn : World T :=
  let o := w.opened F
  let pending := if o.migrate then [(w.made.length, o.list)] else []
  { w with
    marked := w.marked || o.mark
    session := some ⟨o.verdict, o.list, pending⟩
    made := w.made ++ pending }

def edit (op : Op) : World T :=
  match w.session with
  | none => w
  | some s =>
    if s.verdict = .tampered then w
    else
      let list := op.saved s.list
      { w with
        session := some ⟨s.verdict, list, s.pending ++ [(w.made.length, list)]⟩
        made := w.made ++ [(w.made.length, list)] }

def land (ct : Ct) (outcome : Outcome) : World T :=
  match w.session with
  | some ⟨verdict, list, x :: rest⟩ =>
    let w := { w with session := some ⟨verdict, list, rest⟩ }
    let kept := { w with
      book := some (F.sealedText ct), writes := (F.sealedText ct, x.2) :: w.writes, landed := w.landed ++ [x] }
    match outcome with
    | .failed => w
    | .unmarked => kept
    | .stored => { kept with marked := true }
  | _ => w

def act : Event T Ct → World T
  | .signIn => w.signIn F
  | .edit op => w.edit op
  | .land ct outcome => w.land F ct outcome
  | .attack t => { w with book := some t }
  | .mark => { w with marked := true }

/-- The identity wrote what the text says. -/
def Wrote (t : T) : Prop := ∃ x ∈ w.writes, F.view x.1 = F.view t

/-- The list that the last completed write left. -/
def last : List Entry := (w.writes.head?.map Prod.snd).getD []

/-- A blob is sealed to a ciphertext of its own; and nobody puts back what says the same as an older text of the identity. -/
def Allowed : Event T Ct → Prop
  | .land ct _ => ∀ x ∈ w.writes, F.view x.1 ≠ .blob (some ct)
  | .attack t => w.Wrote F t → ∃ x rest, w.writes = x :: rest ∧ F.view x.1 = F.view t
  | _ => True

/-- The marker that a protected book was written stands whenever somebody else stores a text. -/
def Guarded (e : Event T Ct) : Prop :=
  w.Allowed F e ∧ match e with
    | .attack _ => w.marked = true
    | .mark => w.marked = true
    | _ => True

structure Intact : Prop where
  /-- a text that the identity did not write -/
  foreign : ∀ t, w.book = some t → ¬ w.Wrote F t → (w.opened F).verdict = .tampered ∧ (w.opened F).list = []
  /-- what the identity left -/
  own : (∀ t, w.book = some t → w.Wrote F t) → (w.opened F).verdict ≠ .tampered ∧ (w.opened F).list = w.last
  refused : ∀ s, w.session = some s → s.verdict = .tampered → s.pending = [] ∧ ∀ op, w.edit op = w
  ordered : w.landed.Sublist w.made ∧ w.made.map Prod.fst = List.range w.made.length

/-- What the text of an older build, or a sealed one, says. -/
def Denotes (t : T) (list : List Entry) : Prop :=
  match F.view t with
  | .array l => l = list
  | .packing _ body => (F.parse body).getD [] = list
  | .object => False
  | .blob ct => ct.isSome = true

/-- What earlier builds wrote, the newest first, and whether they set the marker: not over a bare array. -/
structure Origin where
  writes : List (T × List Entry)
  marked : Bool
  denotes : ∀ x ∈ writes, Denotes F x.1 x.2
  guarded : marked = true → ∃ x rest, writes = x :: rest ∧ ∀ l, F.view x.1 ≠ .array l

variable {F} in
def start (o : Origin F) : World T := ⟨o.writes.head?.map Prod.fst, o.marked, none, o.writes, [], []⟩

end World

end EncedoChat.Book
