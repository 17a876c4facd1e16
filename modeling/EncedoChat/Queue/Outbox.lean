import Mathlib.Data.List.Sort
import EncedoChat.Room.Outbox

/-!
# What waits for a recipient

`outbox.ts`: the entries of the daemon's queue and the rules for them. An entry is an object that others hold on to, so
entries are kept in cells and the queue is a list of their names.
-/

namespace EncedoChat.Queue

open Room (Time)

/-- `qid`: the clock and the count it is made of. -/
structure Qid where
  now : Time
  seq : Nat
  deriving DecidableEq

/-- What one submission says. `nr` tells submissions apart; no code reads it. -/
structure Text where
  body : String
  nr : Nat
  deriving DecidableEq

structure Entry where
  qid : Qid
  recipient : String
  text : Text
  created : Time
  expires : Time
  key : Option String
  merged : Nat
  deriving DecidableEq

def DEFAULT_TTL_MS : Time := 24 * 3600000

def DEFAULT_EVERY_MS : Time := 60000

def CAP_PER_RECIPIENT : Nat := 100

/-- The text that goes out. -/
def outgoingText (e : Entry) : String :=
  if e.merged ≠ 0 then e.text.body ++ " (+" ++ toString e.merged ++ " wcześniejszych)" else e.text.body

/-- A key that is not empty. -/
def named (key : Option String) : Option String := key.filter (fun k => k ≠ "")

theorem named_eq_some {key : Option String} {k : String} (h : named key = some k) : key = some k := by
  rw [named, Option.filter_eq_some_iff] at h
  exact h.1

structure Outbox where
  cells : OrdMap Qid Entry
  /-- a cell has the name of what is in it -/
  own : ∀ q e, cells.get q = some e → e.qid = q
  entries : List Qid
  /-- recipient and key to when one went out -/
  lastSent : OrdMap (String × String) Time
  seq : Nat

namespace Outbox

variable (o : Outbox)

/-- `this.entries`, as they are now. -/
def all : List Entry := o.entries.filterMap o.cells.get

/-- `this.entries = this.entries.filter(p)` -/
def keep (p : Entry → Bool) : Outbox :=
  { o with entries := o.entries.filter (fun q => (o.cells.get q).any p) }

structure Added where
  entry : Qid
  merged : Bool
  dropped : List Entry

/-- The waiting entry a new text goes into. -/
def same (recipient : String) (key : Option String) : Option Entry :=
  match named key with
  | none => none
  | some k => o.all.find? (fun e => e.recipient = recipient ∧ e.key = some k)

def write (e : Entry) : Outbox :=
  { o with
    cells := o.cells.set e.qid e
    own := by
      intro q x hx
      obtain ⟨rfl, rfl⟩ | ⟨-, hold⟩ := OrdMap.get_set_some hx
      · rfl
      · exact o.own q x hold }

def merge (e : Entry) (text : Text) (expires : Time) : Outbox :=
  o.write { e with merged := e.merged + 1, text := text, expires := max e.expires expires }

/-- A new entry at the end. -/
def push (recipient : String) (text : Text) (now expires : Time) (key : Option String) : Outbox :=
  let qid : Qid := ⟨now, o.seq + 1⟩
  let o := o.write ⟨qid, recipient, text, now, expires, key, 0⟩
  { o with seq := o.seq + 1, entries := o.entries ++ [qid] }

/-- What is over the cap of a recipient, oldest first. -/
def overflow (recipient : String) : List Entry :=
  let mine := o.all.filter (fun e => e.recipient = recipient)
  mine.take (mine.length - CAP_PER_RECIPIENT)

def add (recipient : String) (text : Text) (now : Time) (ttlMs : Option Time) (key : Option String) : Outbox × Added :=
  let expires := now + ttlMs.getD DEFAULT_TTL_MS
  match o.same recipient key with
  | some e => (o.merge e text expires, ⟨e.qid, true, []⟩)
  | none =>
    let o := o.push recipient text now expires key
    let dropped := o.overflow recipient
    (o.keep (fun e => e ∉ dropped), ⟨⟨now, o.seq⟩, false, dropped⟩)

/-- Expired entries, removed and returned. -/
def expire (now : Time) : Outbox × List Entry :=
  (o.keep (fun e => now < e.expires), o.all.filter (fun e => e.expires ≤ now))

/-- The key's window is over, or it never began. -/
def windowOver (recipient key : String) (now everyMs : Time) : Bool :=
  match o.lastSent.get (recipient, key) with
  | none => true
  | some last => everyMs ≤ now - last

/-- What may go to a recipient now, oldest first. -/
def due (recipient : String) (now : Time) : List Entry :=
  ((o.all.filter (fun e => e.recipient = recipient)).filter (fun e =>
    match named e.key with
    | none => true
    | some k => o.windowOver recipient k now DEFAULT_EVERY_MS)).insertionSort (fun a b => a.created ≤ b.created)

def throttled (recipient : String) (key : Option String) (now : Time) : Bool :=
  match named key with
  | none => false
  | some k => !o.windowOver recipient k now DEFAULT_EVERY_MS

/-- The window of a key starts. -/
def went (recipient : String) (key : Option String) (now : Time) : Outbox :=
  match named key with
  | none => o
  | some k => { o with lastSent := o.lastSent.set (recipient, k) now }

def delivered (e : Entry) (now : Time) : Outbox :=
  (o.keep (fun x => x.qid ≠ e.qid)).went e.recipient e.key now

/-! ## What is in it after an operation -/

variable {o}

theorem mem_all {e : Entry} : e ∈ o.all ↔ e.qid ∈ o.entries ∧ o.cells.get e.qid = some e := by
  rw [all, List.mem_filterMap]
  constructor
  · rintro ⟨q, hq, hget⟩
    obtain rfl := o.own q e hget
    exact ⟨hq, hget⟩
  · rintro ⟨hq, hget⟩
    exact ⟨e.qid, hq, hget⟩

/-- A name stands for one entry. -/
theorem eq_of_qid {e e' : Entry} (he : e ∈ o.all) (he' : e' ∈ o.all) (h : e.qid = e'.qid) : e = e' := by
  have hget := (mem_all.mp he).2
  rw [h, (mem_all.mp he').2] at hget
  exact (Option.some.inj hget).symm

@[simp] theorem mem_all_keep {p : Entry → Bool} {e : Entry} : e ∈ (o.keep p).all ↔ e ∈ o.all ∧ p e = true := by
  rw [mem_all, mem_all, keep]
  simp only [List.mem_filter]
  constructor
  · rintro ⟨⟨hq, hp⟩, hget⟩
    rw [hget] at hp
    exact ⟨⟨hq, hget⟩, hp⟩
  · rintro ⟨⟨hq, hget⟩, hp⟩
    exact ⟨⟨hq, by rw [hget]; exact hp⟩, hget⟩

@[simp] theorem cells_keep (p : Entry → Bool) : (o.keep p).cells = o.cells := rfl

@[simp] theorem cells_went (recipient : String) (key : Option String) (now : Time) :
    (o.went recipient key now).cells = o.cells := by
  rw [went]
  split <;> rfl

@[simp] theorem all_went (recipient : String) (key : Option String) (now : Time) :
    (o.went recipient key now).all = o.all := by
  rw [went]
  split <;> rfl

@[simp] theorem cells_delivered (e : Entry) (now : Time) : (o.delivered e now).cells = o.cells := by
  rw [delivered, cells_went, cells_keep]

theorem mem_all_delivered {e x : Entry} {now : Time} : x ∈ (o.delivered e now).all ↔ x ∈ o.all ∧ x.qid ≠ e.qid := by
  rw [delivered, all_went, mem_all_keep, decide_eq_true_eq]

theorem mem_all_merge {e x : Entry} {text : Text} {expires : Time} (he : e ∈ o.all) :
    x ∈ (o.merge e text expires).all ↔ x ∈ o.all ∧ x.qid ≠ e.qid ∨
      x = { e with merged := e.merged + 1, text := text, expires := max e.expires expires } := by
  rw [mem_all, mem_all, merge, write]
  simp only [OrdMap.get_set]
  by_cases hq : x.qid = e.qid
  · rw [if_pos hq, hq, Option.some.injEq]
    simp [(mem_all.mp he).1, eq_comm]
  · rw [if_neg hq]
    constructor
    · intro h
      exact .inl ⟨h, hq⟩
    · rintro (⟨h, -⟩ | rfl)
      · exact h
      · exact (hq rfl).elim

theorem mem_all_push {recipient : String} {text : Text} {now expires : Time} {key : Option String} {x : Entry} :
    x ∈ (o.push recipient text now expires key).all ↔
      x ∈ o.all ∧ x.qid ≠ ⟨now, o.seq + 1⟩ ∨ x = ⟨⟨now, o.seq + 1⟩, recipient, text, now, expires, key, 0⟩ := by
  rw [mem_all, mem_all, push, write]
  simp only [OrdMap.get_set, List.mem_append, List.mem_singleton]
  by_cases hq : x.qid = ⟨now, o.seq + 1⟩
  · rw [if_pos hq, Option.some.injEq]
    simp [hq, eq_comm]
  · rw [if_neg hq]
    constructor
    · rintro ⟨h | h, hget⟩
      · exact .inl ⟨⟨h, hget⟩, hq⟩
      · exact (hq h).elim
    · rintro (⟨⟨h, hget⟩, -⟩ | rfl)
      · exact ⟨.inl h, hget⟩
      · exact (hq rfl).elim

theorem same_eq_some {recipient : String} {key : Option String} {e : Entry} (h : o.same recipient key = some e) :
    e ∈ o.all ∧ e.recipient = recipient ∧ e.key = key := by
  rw [same] at h
  split at h
  · cases h
  · rename_i k hk
    have hp := List.find?_some h
    simp only [decide_eq_true_eq] at hp
    exact ⟨List.mem_of_find?_eq_some h, hp.1, hp.2.trans (named_eq_some hk).symm⟩

theorem named_of_same {recipient : String} {key : Option String} {e : Entry} (h : o.same recipient key = some e) :
    (named key).isSome := by
  rw [same] at h
  split at h
  · cases h
  · rename_i k hk
    rw [hk]
    rfl

/-- What `add` does: the text is in entry `x` now, alone; others stay, or were dropped, or were that entry before. -/
structure Placed (o o' : Outbox) (recipient : String) (text : Text) (key : Option String) (dropped : List Entry)
    (x : Entry) : Prop where
  text : x.text = text
  recipient : x.recipient = recipient
  key : x.key = key
  cells : o'.cells = o.cells.set x.qid x
  there : x ∈ o'.all ∨ x ∈ dropped
  old : ∀ y ∈ o'.all, y = x ∨ y ∈ o.all
  kept : ∀ y ∈ o.all, y ∈ o'.all ∨ y ∈ dropped ∨ y.qid = x.qid

theorem add_placed (o : Outbox) (recipient : String) (text : Text) (now : Time) (ttlMs : Option Time)
    (key : Option String) :
    ∃ x, Placed o (o.add recipient text now ttlMs key).1 recipient text key
      (o.add recipient text now ttlMs key).2.dropped x ∧ x.qid = (o.add recipient text now ttlMs key).2.entry := by
  rw [add]
  split
  · rename_i e he
    obtain ⟨hin, hrec, hkey⟩ := same_eq_some he
    refine ⟨{ e with
      merged := e.merged + 1, text := text, expires := max e.expires (now + ttlMs.getD DEFAULT_TTL_MS) }, ?_, rfl⟩
    exact {
      text := rfl
      recipient := hrec
      key := hkey
      cells := rfl
      there := .inl ((mem_all_merge hin).mpr (.inr rfl))
      old := fun y hy => ((mem_all_merge hin).mp hy).symm.imp_right And.left
      kept := fun y hy => by
        by_cases hq : y.qid = e.qid
        · exact .inr (.inr hq)
        · exact .inl ((mem_all_merge hin).mpr (.inl ⟨hy, hq⟩)) }
  · refine ⟨⟨⟨now, o.seq + 1⟩, recipient, text, now, now + ttlMs.getD DEFAULT_TTL_MS, key, 0⟩, ?_, rfl⟩
    have stays : ∀ {p : Outbox} {l : List Entry} {y : Entry}, y ∈ p.all → y ∈ (p.keep (fun e => e ∉ l)).all ∨ y ∈ l := by
      intro p l y hy
      by_cases hl : y ∈ l
      · exact .inr hl
      · exact .inl (mem_all_keep.mpr ⟨hy, by simpa using hl⟩)
    exact {
      text := rfl
      recipient := rfl
      key := rfl
      cells := rfl
      there := stays (mem_all_push.mpr (.inr rfl))
      old := fun y hy => (mem_all_push.mp (mem_all_keep.mp hy).1).symm.imp_right And.left
      kept := fun y hy => by
        by_cases hq : y.qid = ⟨now, o.seq + 1⟩
        · exact .inr (.inr hq)
        · exact (stays (mem_all_push.mpr (.inl ⟨hy, hq⟩))).imp_right .inl }

/-- An entry whose name the new text has is the one it was merged into, when new names are new. -/
theorem same_of_entry {recipient : String} {text : Text} {now : Time} {ttlMs : Option Time} {key : Option String}
    {y : Entry} (hy : y ∈ o.all) (hnew : o.cells.get ⟨now, o.seq + 1⟩ = none)
    (hq : y.qid = (o.add recipient text now ttlMs key).2.entry) : o.same recipient key = some y := by
  rw [add] at hq
  split at hq
  · rename_i e he
    rw [eq_of_qid hy (same_eq_some he).1 hq, he]
  · have hget := (mem_all.mp hy).2
    rw [hq] at hget
    cases hnew.symm.trans hget

theorem due_sub {recipient : String} {now : Time} {e : Entry} (h : e ∈ o.due recipient now) :
    e ∈ o.all ∧ e.recipient = recipient := by
  rw [due, List.mem_insertionSort, List.mem_filter, List.mem_filter] at h
  exact ⟨h.1.1, by simpa using h.1.2⟩

end Outbox

end EncedoChat.Queue
