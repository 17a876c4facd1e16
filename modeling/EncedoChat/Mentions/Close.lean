import EncedoChat.Mentions.Find
import Mathlib.Data.List.Sort

/-!
# Closing the mentions of a message

`closeMentions` of `mentions.ts`: a bare `@name` gets the hint of the member it means.
-/

namespace EncedoChat.Mentions

open Units

/-- A public key in base64. -/
structure PubKey where
  text : Units
  raw : Bytes
  reads : Base64.atob text = some raw
  full : raw.length = 32

structure Member where
  pub : PubKey
  name : Units

def pubHint (pub : PubKey) : Units := Descr.hex (pub.raw.take 4)

def mentionText (name : Units) (pub : PubKey) : Units := AT :: (mentionName name ++ HASH :: pubHint pub)

/-- What may stand after a name: `[\s.,;:!?)\]}'"]`. -/
def isAfter (u : UInt16) : Bool :=
  isSpace u || u ∈ [(0x2E : UInt16), 0x2C, 0x3B, 0x3A, 0x21, 0x3F, 0x29, 0x5D, 0x7D, 0x27, 0x22]

/-- What is made of a text: a character as it was, or a name with its member. -/
inductive Segment where
  | kept (u : UInt16)
  | closed (name : Units) (m : Member)

def Segment.typed : Segment → Units
  | kept u => [u]
  | closed name _ => AT :: name

def Segment.written : Segment → Units
  | kept u => [u]
  | closed _ m => mentionText m.name m.pub

section
variable (lower : Units → Units) (picked : Units → Option PubKey) (roster : List Member)

/-- The members that have a name, the longest names first. -/
def named : List Member :=
  (roster.filter fun r => mentionName r.name ≠ []).insertionSort fun a b => b.name.length ≤ a.name.length

def fits (us : Units) (r : Member) : Bool :=
  lower (us.take r.name.length) = lower r.name && (us.drop r.name.length).head?.all isAfter

/-- `best`: the longest names that fit, and the first of them. -/
def best (us : Units) : Option (Member × List Member) :=
  match (named roster).filter (fits lower us) with
  | [] => none
  | first :: more => some (first, (first :: more).filter fun r => r.name.length = first.name.length)

/-- The member that is meant; `none` keeps the plain word. -/
def resolve (us : Units) : Option Member :=
  match best lower roster us with
  | none => none
  | some (first, all) =>
    match picked (lower (mentionName first.name)) with
    | some chose => some ((all.find? fun r => r.pub.text = chose.text).getD first)
    | none => if all.any fun r => r.pub.text ≠ first.pub.text then none else some first

/-- The loop over the `@` that open a word, with the character before and what is still to pass of a name. -/
def close : Option UInt16 → Nat → Units → List Segment
  | _, _, [] => []
  | _, n + 1, u :: us => close (some u) n us
  | before, 0, u :: us =>
    if u = AT ∧ opensWord before ∧ (mentionAfter us).isNone then
      match resolve lower picked roster us with
      | some one => .closed (us.take one.name.length) one :: close (some u) one.name.length us
      | none => .kept u :: close (some u) 0 us
    else .kept u :: close (some u) 0 us

def closeMentions (text : Units) : Units :=
  if AT ∉ text ∨ roster = [] then text else (close lower picked roster none 0 text).flatMap Segment.written

end

/-- What `toLowerCase` does with an `@`. -/
structure Casing (lower : Units → Units) : Prop where
  append : ∀ a z, lower (a ++ AT :: z) = lower a ++ AT :: lower z
  mem : ∀ a, AT ∈ lower a → AT ∈ a

/-! ## What a name means -/

variable {lower : Units → Units} {picked : Units → Option PubKey} {roster : List Member} {us : Units} {m : Member}

theorem mem_named {r : Member} : r ∈ named roster ↔ r ∈ roster ∧ mentionName r.name ≠ [] := by
  rw [named, (List.perm_insertionSort _ _).mem_iff, List.mem_filter, decide_eq_true_iff]

theorem best_some {first : Member} {all : List Member} (h : best lower roster us = some (first, all)) :
    first ∈ all ∧ ∀ r, r ∈ all ↔ (r ∈ roster ∧ mentionName r.name ≠ []) ∧ fits lower us r = true ∧
      r.name.length = first.name.length := by
  have hall : ∀ r, r ∈ (named roster).filter (fits lower us) ↔ (r ∈ roster ∧ mentionName r.name ≠ []) ∧ fits lower us r = true := by
    intro r
    rw [List.mem_filter, mem_named]
  rw [best] at h
  split at h
  · cases h
  · rename_i first' more hfits
    rw [Option.some.injEq, Prod.mk.injEq] at h
    obtain ⟨rfl, rfl⟩ := h
    rw [hfits] at hall
    refine ⟨List.mem_filter.mpr ⟨List.mem_cons_self, by simp⟩, fun r => ?_⟩
    rw [List.mem_filter, hall, decide_eq_true_iff, and_assoc]

/-- One of the longest, and the one that was picked or all there is. -/
theorem resolve_some (h : resolve lower picked roster us = some m) : ∃ first all, best lower roster us = some (first, all) ∧
    m ∈ all ∧ ((∃ chose, picked (lower (mentionName first.name)) = some chose ∧
        (m.pub.text = chose.text ∨ ∀ r ∈ all, r.pub.text ≠ chose.text)) ∨
      picked (lower (mentionName first.name)) = none ∧ ∀ r ∈ all, r.pub.text = m.pub.text) := by
  rw [resolve] at h
  split at h
  · cases h
  · rename_i first all hbest
    have hfirst := (best_some hbest).1
    refine ⟨first, all, hbest, ?_⟩
    split at h
    · rename_i chose hchose
      cases hfind : all.find? fun r => r.pub.text = chose.text with
      | none =>
          rw [hfind] at h
          cases h
          refine ⟨hfirst, .inl ⟨chose, hchose, .inr fun r hr => ?_⟩⟩
          simpa using List.find?_eq_none.mp hfind r hr
      | some r =>
          rw [hfind] at h
          cases h
          exact ⟨List.mem_of_find?_eq_some hfind, .inl ⟨chose, hchose, .inl (by simpa using List.find?_some hfind)⟩⟩
    · rename_i hnone
      split at h
      · cases h
      · rename_i hsame
        cases h
        refine ⟨hfirst, .inr ⟨hnone, fun r hr => ?_⟩⟩
        by_contra hne
        exact hsame (List.any_eq_true.mpr ⟨r, hr, by simpa using hne⟩)

theorem fits_iff {r : Member} : fits lower us r = true ↔
    lower (us.take r.name.length) = lower r.name ∧ ∀ u ∈ (us.drop r.name.length).head?, isAfter u = true := by
  rw [fits, Bool.and_eq_true, decide_eq_true_iff, Option.all_eq_true]
  exact Iff.rfl

/-- What is resolved is a member of the roster whose name stands there. -/
theorem resolve_fits (h : resolve lower picked roster us = some m) : (m ∈ roster ∧ mentionName m.name ≠ []) ∧
    lower (us.take m.name.length) = lower m.name ∧ ∀ u ∈ (us.drop m.name.length).head?, isAfter u = true := by
  obtain ⟨first, all, hbest, hm, -⟩ := resolve_some h
  obtain ⟨hmem, hfits, -⟩ := ((best_some hbest).2 m).mp hm
  exact ⟨hmem, fits_iff.mp hfits⟩

/-! ## One pass -/

theorem isAfter_at : isAfter AT = false := by decide

theorem isAfter_alnum {u : UInt16} (h : isAfter u = true) : isAlnum u = false := by
  have hlt := u.toNat_lt
  by_contra hno
  rw [Bool.not_eq_false, isAlnum] at hno
  simp only [Bool.or_eq_true, Bool.and_eq_true, decide_eq_true_iff] at hno
  rw [isAfter, Bool.or_eq_true] at h
  rcases h with h | h
  · simp only [isSpace, Bool.or_eq_true, Bool.and_eq_true, decide_eq_true_iff] at h
    omega
  · have hmem := of_decide_eq_true h
    simp only [List.mem_cons, List.not_mem_nil, or_false] at hmem
    rcases hmem with rfl | rfl | rfl | rfl | rfl | rfl | rfl | rfl | rfl | rfl | rfl <;> simp at hno

/-- Passing over a name. -/
theorem close_skip (lower : Units → Units) (picked : Units → Option PubKey) (roster : List Member)
    (before : Option UInt16) (n : Nat) (s : Units) : ∃ last, close lower picked roster before n s =
    close lower picked roster last 0 (s.drop n) ∧ last = ((s.take n).getLast?).or before := by
  induction n generalizing before s with
  | zero => exact ⟨before, by rw [List.drop_zero], by simp⟩
  | succ n ih =>
      cases s with
      | nil => exact ⟨before, by simp [close], by simp⟩
      | cons u s =>
          obtain ⟨last, hclose, hlast⟩ := ih (some u) s
          refine ⟨last, by rw [close, hclose, List.drop_succ_cons], ?_⟩
          rw [hlast, List.take_succ_cons]
          cases ht : s.take n with
          | nil => rfl
          | cons v t => simp [List.getLast?_cons]

/-- A character that opens nothing stays. -/
theorem close_kept {u : UInt16} {before : Option UInt16} (h : u = AT → opensWord before = true → mentionAfter us = none →
    resolve lower picked roster us = none) :
    close lower picked roster before 0 (u :: us) = .kept u :: close lower picked roster (some u) 0 us := by
  rw [close]
  split
  · rename_i hopen
    rw [h hopen.1 hopen.2.1 (Option.isNone_iff_eq_none.mp hopen.2.2)]
  · rfl

theorem close_closed {before : Option UInt16} (hopen : opensWord before = true) (hm : mentionAfter us = none)
    (h : resolve lower picked roster us = some m) : close lower picked roster before 0 (AT :: us) =
      .closed (us.take m.name.length) m :: close lower picked roster (some AT) m.name.length us := by
  rw [close, if_pos ⟨rfl, hopen, by rw [hm]; rfl⟩, h]

/-- Where a pass stands: at the end, at a character that stays, or at a name it closes. -/
theorem close_cases (lower : Units → Units) (picked : Units → Option PubKey) (roster : List Member)
    (before : Option UInt16) (s : Units) : s = [] ∨
    (∃ u us, s = u :: us ∧ (u = AT → opensWord before = true → mentionAfter us = none →
      resolve lower picked roster us = none)) ∨
    ∃ us m, s = AT :: us ∧ opensWord before = true ∧ mentionAfter us = none ∧ resolve lower picked roster us = some m := by
  cases s with
  | nil => exact .inl rfl
  | cons u us =>
      right
      by_cases hkeep : u = AT → opensWord before = true → mentionAfter us = none → resolve lower picked roster us = none
      · exact .inl ⟨u, us, rfl, hkeep⟩
      · right
        simp only [Classical.not_imp] at hkeep
        obtain ⟨rfl, hopen, hm, hres⟩ := hkeep
        obtain ⟨m, hsome⟩ := Option.ne_none_iff_exists'.mp hres
        exact ⟨us, m, rfl, hopen, hm, hsome⟩

/-- A pass, character by character and name by name. -/
theorem close_induction (lower : Units → Units) (picked : Units → Option PubKey) (roster : List Member)
    {P : Option UInt16 → Units → Prop} (nil : ∀ before, P before [])
    (kept : ∀ before u us, (u = AT → opensWord before = true → mentionAfter us = none →
      resolve lower picked roster us = none) → P (some u) us → P before (u :: us))
    (closed : ∀ before us m last, opensWord before = true → mentionAfter us = none →
      resolve lower picked roster us = some m → last = ((us.take m.name.length).getLast?).or (some AT) →
      close lower picked roster (some AT) m.name.length us = close lower picked roster last 0 (us.drop m.name.length) →
      P last (us.drop m.name.length) → P before (AT :: us)) (before : Option UInt16) (s : Units) : P before s := by
  obtain ⟨n, hn⟩ : ∃ n, s.length ≤ n := ⟨_, le_rfl⟩
  induction n generalizing before s with
  | zero =>
      rw [List.length_eq_zero_iff.mp (Nat.le_zero.mp hn)]
      exact nil before
  | succ n ih =>
      rcases close_cases lower picked roster before s with
        rfl | ⟨u, us, rfl, hkeep⟩ | ⟨us, m, rfl, hopen, hm, hres⟩
      · exact nil before
      · exact kept before u us hkeep (ih (some u) us (by simpa using hn))
      · obtain ⟨last, hskip, hlast⟩ := close_skip lower picked roster (some AT) m.name.length us
        refine closed before us m last hopen hm hres hlast hskip (ih last _ ?_)
        rw [List.length_cons] at hn
        rw [List.length_drop]
        omega

/-- The segments are the text. -/
theorem typed_close (before : Option UInt16) (s : Units) : (close lower picked roster before 0 s).flatMap Segment.typed = s := by
  induction before, s using close_induction lower picked roster with
  | nil before => rfl
  | kept before u us hkeep ih =>
      rw [close_kept hkeep, List.flatMap_cons, ih]
      rfl
  | closed before us m last hopen hm hres hlast hskip ih =>
      rw [close_closed hopen hm hres, hskip, List.flatMap_cons, ih, Segment.typed, List.cons_append, List.take_append_drop]

/-- What is closed is what a member was resolved from. -/
theorem mem_close {before : Option UInt16} {s name : Units} (h : .closed name m ∈ close lower picked roster before 0 s) :
    ∃ pre us, s = pre ++ AT :: us ∧ opensWord (pre.getLast?.or before) = true ∧ mentionAfter us = none ∧
      resolve lower picked roster us = some m ∧ name = us.take m.name.length := by
  induction before, s using close_induction lower picked roster with
  | nil before => cases h
  | kept before u us hkeep ih =>
      rw [close_kept hkeep] at h
      rcases List.mem_cons.mp h with h | h
      · cases h
      · obtain ⟨pre, us', rfl, hopen, hm, hres, hname⟩ := ih h
        refine ⟨u :: pre, us', rfl, ?_, hm, hres, hname⟩
        cases pre with
        | nil => exact hopen
        | cons v pre => simpa [List.getLast?_cons] using hopen
  | closed before us m' last hopen hm hres hlast hskip ih =>
      rw [close_closed hopen hm hres, hskip] at h
      rcases List.mem_cons.mp h with h | h
      · cases h
        exact ⟨[], us, rfl, hopen, hm, hres, rfl⟩
      · obtain ⟨pre, us', hsplit, hopen', hm', hres', hname⟩ := ih h
        refine ⟨AT :: us.take m'.name.length ++ pre, us', ?_, ?_, hm', hres', hname⟩
        · rw [List.cons_append, List.cons_append, List.append_assoc, ← hsplit, List.take_append_drop]
        · rw [List.getLast?_append, List.getLast?_cons]
          rw [hlast] at hopen'
          cases hp : pre.getLast? with
          | some v =>
              rw [hp] at hopen'
              exact hopen'
          | none =>
              rw [hp] at hopen'
              cases ht : (us.take m'.name.length).getLast? with
              | none =>
                  rw [ht] at hopen'
                  simpa using hopen'
              | some v =>
                  rw [ht] at hopen'
                  simpa using hopen'

/-! ## What was closed is found again -/

/-- Segments in which each name that is closed opens a word and ends before what may follow one. -/
inductive Sound : Option UInt16 → List Segment → Prop where
  | nil {before} : Sound before []
  | kept {before u segs} : Sound (some u) segs → Sound before (.kept u :: segs)
  | last {before name m} : opensWord before = true → Sound before [.closed name m]
  | closed {before name m u segs} : opensWord before = true → isAfter u = true → Sound (some u) segs →
      Sound before (.closed name m :: .kept u :: segs)

theorem close_sound (lower : Units → Units) (picked : Units → Option PubKey) (roster : List Member)
    (before : Option UInt16) (s : Units) : Sound before (close lower picked roster before 0 s) := by
  induction before, s using close_induction lower picked roster with
  | nil before => exact .nil
  | kept before u us hkeep ih =>
      rw [close_kept hkeep]
      exact .kept ih
  | closed before us m last hopen hm hres hlast hskip ih =>
      rw [close_closed hopen hm hres, hskip]
      cases hrest : us.drop m.name.length with
      | nil => exact .last hopen
      | cons u rest =>
          have hafter : isAfter u = true := (resolve_fits hres).2.2 u (by rw [hrest]; rfl)
          have hkeep : u = AT → opensWord last = true → mentionAfter rest = none → resolve lower picked roster rest = none := by
            rintro rfl
            rw [isAfter_at] at hafter
            cases hafter
          rw [hrest, close_kept hkeep] at ih
          rw [close_kept hkeep]
          cases ih with
          | kept ih => exact .closed hopen hafter ih

theorem length_pubHint (pub : PubKey) : (pubHint pub).length = 8 := by
  rw [pubHint, Descr.length_hex, List.length_take, pub.full]
  rfl

theorem digits_pubHint (pub : PubKey) : ∀ u ∈ pubHint pub, (Descr.hexValue u).isSome = true ∧ Descr.lowerUnit u = u := by
  intro u hu
  have hlow := Descr.mem_hex hu
  obtain ⟨n, -, hn, -⟩ := Descr.hexValue_of_lower hlow
  refine ⟨by rw [hn]; rfl, if_neg ?_⟩
  rw [Descr.IsLowerHex] at hlow
  omega

/-- The text that travels is matched, with the hint of the key. -/
theorem mentionAfter_text (name : Units) (pub : PubKey) (rest : Units) (h : ∀ u ∈ rest.head?, isAlnum u = false) :
    mentionAfter (mentionName name ++ HASH :: (pubHint pub ++ rest)) = some (mentionName name, pubHint pub) :=
  mentionAfter_mk (isName_mentionName name) (fun hmem => (mem_mentionName hmem).2.1 rfl) (length_pubHint pub)
    (fun u hu => (digits_pubHint pub u hu).1) h

theorem AT_notMem_text (name : Units) (pub : PubKey) : AT ∉ mentionName name ++ HASH :: pubHint pub := by
  simp only [List.mem_append, List.mem_cons, not_or]
  exact ⟨fun h => (mem_mentionName h).1 rfl, by decide, AT_notMem_hint fun u hu => (digits_pubHint pub u hu).1⟩

/-- A mention that was written. -/
def mentionOf (pos : Nat) (m : Member) : FoundMention :=
  ⟨pos, pos + (mentionName m.name).length + 10, mentionText m.name m.pub, mentionName m.name, pubHint m.pub⟩

theorem findFrom_written {before : Option UInt16} (hopen : opensWord before = true) (pos : Nat) (m : Member) (rest : Units)
    (h : ∀ u ∈ rest.head?, isAlnum u = false) : ∃ last, findFrom before pos (mentionText m.name m.pub ++ rest) =
      mentionOf pos m :: findFrom (some last) (pos + (mentionText m.name m.pub).length) rest := by
  obtain ⟨last, rest', hsplit, -, hfind⟩ := findFrom_mention hopen pos (mentionAfter_text m.name m.pub rest h)
  have hhint : (pubHint m.pub).map Descr.lowerUnit = pubHint m.pub := by
    rw [List.map_congr_left fun u hu => (digits_pubHint m.pub u hu).2, List.map_id']
  obtain rfl : rest = rest' := by
    have hcancel := List.append_cancel_left hsplit
    exact List.append_cancel_left (List.cons.inj hcancel).2
  have hlen : (mentionText m.name m.pub).length = (mentionName m.name).length + 10 := by
    simp only [mentionText, List.length_cons, List.length_append, length_pubHint]
  refine ⟨last, ?_⟩
  rw [hhint] at hfind
  rw [hlen, mentionText, List.cons_append, List.append_assoc, List.cons_append, hfind, mentionOf, mentionText, Nat.add_assoc]

/-- Each name that was closed stands in the text as a mention of its member. -/
theorem Sound.found {before : Option UInt16} {segs : List Segment} (h : Sound before segs) (pos : Nat) {a b : List Segment}
    {name : Units} (hsplit : segs = a ++ .closed name m :: b) :
    mentionOf (pos + (a.flatMap Segment.written).length) m ∈ findFrom before pos (segs.flatMap Segment.written) := by
  induction h generalizing pos a with
  | nil => simp at hsplit
  | @kept before u segs hs ih =>
      cases a with
      | nil => cases hsplit
      | cons x a =>
          rw [List.cons_append, List.cons.injEq] at hsplit
          obtain ⟨rfl, rfl⟩ := hsplit
          have hmem := ih (pos + 1) rfl
          have hpos : pos + ((.kept u :: a).flatMap Segment.written).length = pos + 1 + (a.flatMap Segment.written).length := by
            simp only [List.flatMap_cons, Segment.written, List.length_append, List.length_singleton]
            omega
          rw [hpos, List.flatMap_cons, Segment.written, List.singleton_append, findFrom]
          exact List.mem_append_right _ hmem
  | @last before name' m' hopen =>
      cases a with
      | nil =>
          cases hsplit
          obtain ⟨last, hfind⟩ := findFrom_written hopen pos m [] (by simp)
          rw [List.append_nil] at hfind
          rw [List.flatMap_singleton, Segment.written, hfind]
          exact List.mem_cons_self
      | cons x a => simp at hsplit
  | @closed before name' m' u segs hopen hafter hs ih =>
      obtain ⟨last, hfind⟩ := findFrom_written hopen pos m' (u :: segs.flatMap Segment.written)
        (fun v hv => by cases hv; exact isAfter_alnum hafter)
      have hat : ¬(u = AT ∧ opensWord (some last) = true ∧ (mentionAfter (segs.flatMap Segment.written)).isSome = true) := by
        rintro ⟨rfl, -⟩
        rw [isAfter_at] at hafter
        cases hafter
      rw [List.flatMap_cons, List.flatMap_cons, Segment.written, Segment.written, List.singleton_append, hfind, findFrom_next hat]
      cases a with
      | nil =>
          cases hsplit
          exact List.mem_cons_self
      | cons x a =>
          cases a with
          | nil => simp at hsplit
          | cons y a =>
              simp only [List.cons_append, List.cons.injEq] at hsplit
              obtain ⟨rfl, rfl, rfl⟩ := hsplit
              have hmem := ih (pos + (mentionText m'.name m'.pub).length + 1) rfl
              refine List.mem_cons_of_mem _ ?_
              have hpos : pos + ((.closed name' m' :: .kept u :: a).flatMap Segment.written).length =
                  pos + (mentionText m'.name m'.pub).length + 1 + (a.flatMap Segment.written).length := by
                simp only [List.flatMap_cons, Segment.written, List.length_append, List.length_singleton]
                omega
              rw [hpos]
              exact hmem

/-! ## A second pass -/

/-- The same up to the next `@`. -/
def Same (s t : Units) : Prop :=
  ∃ a x y, s = a ++ x ∧ t = a ++ y ∧ AT ∉ a ∧ (x = [] ∧ y = [] ∨ x.head? = some AT ∧ y.head? = some AT)

/-- A pass leaves all up to the next `@`. -/
theorem same_close (lower : Units → Units) (picked : Units → Option PubKey) (roster : List Member)
    (before : Option UInt16) (s : Units) :
    Same s ((close lower picked roster before 0 s).flatMap Segment.written) := by
  induction before, s using close_induction lower picked roster with
  | nil before => exact ⟨[], [], [], rfl, rfl, by simp, .inl ⟨rfl, rfl⟩⟩
  | kept before u us hkeep ih =>
      rw [close_kept hkeep, List.flatMap_cons, Segment.written, List.singleton_append]
      by_cases hu : u = AT
      · exact ⟨[], _, _, rfl, rfl, by simp, .inr ⟨by rw [hu]; rfl, by rw [hu]; rfl⟩⟩
      · obtain ⟨a, x, y, hs, ht, ha, hxy⟩ := ih
        refine ⟨u :: a, x, y, by rw [hs, List.cons_append], by rw [ht, List.cons_append], ?_, hxy⟩
        rw [List.mem_cons, not_or]
        exact ⟨fun hat => hu hat.symm, ha⟩
  | closed before us m last hopen hm hres hlast hskip ih =>
      rw [close_closed hopen hm hres, List.flatMap_cons]
      exact ⟨[], _, _, rfl, rfl, by simp, .inr ⟨rfl, rfl⟩⟩

/-- What is matched after an `@` does not reach over the next. -/
theorem Same.mentionAfter_some {s t : Units} (h : Same s t) {r : Units × Units} (hs : mentionAfter s = some r) :
    mentionAfter t = some r := by
  obtain ⟨name, hint⟩ := r
  obtain ⟨a, x, y, rfl, rfl, ha, hxy⟩ := h
  obtain ⟨rest, hsplit, hname, hhash, hlen, hhex, hnext⟩ := Mentions.mentionAfter_some hs
  have hplain : AT ∉ name ++ HASH :: hint := by
    simp only [List.mem_append, List.mem_cons, not_or]
    exact ⟨AT_notMem_name hname, by decide, AT_notMem_hint hhex⟩
  have hsplit' : (name ++ HASH :: hint) ++ rest = a ++ x := by
    rw [hsplit]
    simp
  have hpre : name ++ HASH :: hint <+: a := by
    rcases List.prefix_or_prefix_of_prefix ⟨rest, hsplit'⟩ (List.prefix_append a x) with hpre | ⟨t, ht⟩
    · exact hpre
    · rw [← ht, List.append_assoc] at hsplit'
      have hx := List.append_cancel_left hsplit'
      cases t with
      | nil => exact ⟨[], by simpa using ht.symm⟩
      | cons v t =>
          rcases hxy with ⟨rfl, -⟩ | ⟨hx', -⟩
          · cases hx
          · rw [← hx] at hx'
            obtain rfl := Option.some.inj hx'
            rw [← ht] at hplain
            simp at hplain
  obtain ⟨a', rfl⟩ := hpre
  have hrest : rest = a' ++ x := by
    rw [List.append_assoc (name ++ HASH :: hint) a' x] at hsplit'
    exact List.append_cancel_left hsplit'
  have hassoc : name ++ HASH :: hint ++ a' ++ y = name ++ HASH :: (hint ++ (a' ++ y)) := by simp
  rw [hassoc]
  apply mentionAfter_mk hname hhash hlen hhex
  intro u hu
  cases a' with
  | cons v a' =>
      apply hnext u
      rw [hrest]
      exact hu
  | nil =>
      rcases hxy with ⟨-, rfl⟩ | ⟨-, hy⟩
      · cases hu
      · rw [List.nil_append, hy] at hu
        rw [← Option.some.inj hu]
        decide

theorem Same.mentionAfter_none {s t : Units} (h : Same s t) (hs : mentionAfter t = none) : mentionAfter s = none := by
  cases hm : mentionAfter s with
  | none => rfl
  | some r =>
      rw [h.mentionAfter_some hm] at hs
      cases hs

theorem at_unique {a p z q : Units} (ha : AT ∉ a) (hp : AT ∉ p) (h : a ++ AT :: z = p ++ AT :: q) : a = p := by
  rw [← takeWhile_mark ha z, h, takeWhile_mark hp q]

/-- A name with an `@` in it that begins as the text up to the next `@` does. -/
def Reaches (lower : Units → Units) (a name : Units) : Prop := ∃ p q, name = p ++ AT :: q ∧ AT ∉ p ∧ lower p = lower a

/-- A name fits by what stands up to the next `@`, unless it reaches over it. -/
theorem fits_same (hl : Casing lower) {a x y : Units} (ha : AT ∉ a)
    (hxy : x = [] ∧ y = [] ∨ x.head? = some AT ∧ y.head? = some AT) {r : Member} (hr : x ≠ [] → ¬Reaches lower a r.name)
    (h : fits lower (a ++ x) r = true) : fits lower (a ++ y) r = true := by
  rcases hxy with ⟨rfl, rfl⟩ | ⟨hx, hy⟩
  · exact h
  · obtain ⟨z, rfl⟩ : ∃ z, x = AT :: z := by
      cases x with
      | nil => cases hx
      | cons v z => exact ⟨z, by rw [Option.some.inj hx]⟩
    obtain ⟨w, rfl⟩ : ∃ w, y = AT :: w := by
      cases y with
      | nil => cases hy
      | cons v w => exact ⟨w, by rw [Option.some.inj hy]⟩
    by_cases hshort : r.name.length ≤ a.length
    · have htake : ∀ t, (a ++ AT :: t).take r.name.length = a.take r.name.length :=
        fun t => List.take_append_of_le_length hshort
      have hdrop : ∀ t, ((a ++ AT :: t).drop r.name.length).head? = ((a.drop r.name.length).head?).or (some AT) := by
        intro t
        rw [List.drop_append_of_le_length hshort, List.head?_append]
        rfl
      rw [fits, htake, hdrop] at h ⊢
      exact h
    · -- the name would have to have the `@` in it
      have htake : (a ++ AT :: z).take r.name.length = a ++ AT :: z.take (r.name.length - a.length - 1) := by
        have hlen : r.name.length = a.length + (r.name.length - a.length - 1 + 1) := by omega
        rw [hlen, List.take_length_add_append, List.take_succ_cons]
        congr 3
        omega
      rw [fits, Bool.and_eq_true, decide_eq_true_iff, htake, hl.append] at h
      have hmem : AT ∈ r.name := by
        apply hl.mem
        rw [← h.1]
        simp
      obtain ⟨p, q, hname, hp⟩ := List.eq_append_cons_of_mem hmem
      have hlower := h.1
      rw [hname, hl.append] at hlower
      have heq := at_unique (fun hm => ha (hl.mem a hm)) (fun hm => hp (hl.mem p hm)) hlower
      exact absurd ⟨p, q, hname, hp, heq.symm⟩ (hr (by simp))

theorem resolve_same (hl : Casing lower) {a x y : Units} (ha : AT ∉ a)
    (hxy : x = [] ∧ y = [] ∨ x.head? = some AT ∧ y.head? = some AT)
    (hr : x ≠ [] → ∀ r ∈ roster, mentionName r.name ≠ [] → ¬Reaches lower a r.name) :
    resolve lower picked roster (a ++ x) = resolve lower picked roster (a ++ y) := by
  have hne : y ≠ [] → x ≠ [] := by
    rcases hxy with ⟨rfl, rfl⟩ | ⟨hx, -⟩
    · exact id
    · rintro - rfl
      cases hx
  have hfits : (named roster).filter (fits lower (a ++ x)) = (named roster).filter (fits lower (a ++ y)) := by
    apply List.filter_congr
    intro r hmem
    obtain ⟨hroster, hname⟩ := mem_named.mp hmem
    rw [Bool.eq_iff_iff]
    exact ⟨fits_same hl ha hxy fun hx => hr hx r hroster hname,
      fits_same hl ha (hxy.imp And.symm And.symm) fun hy => hr (hne hy) r hroster hname⟩
  rw [resolve, resolve, best, best, hfits]

/-! ## What a text and a roster must be -/

/-- An `@` that opens a word and carries no hint, with what follows it. -/
def Bare (before : Option UInt16) (s us : Units) : Prop :=
  ∃ pre, s = pre ++ AT :: us ∧ opensWord (pre.getLast?.or before) = true ∧ mentionAfter us = none

/-- No name of the roster begins as a bare mention that is left open, and goes on with an `@` where the next one stands. -/
def NoReach (lower : Units → Units) (picked : Units → Option PubKey) (roster : List Member) (before : Option UInt16)
    (s : Units) : Prop :=
  ∀ us, Bare before s us → resolve lower picked roster us = none → ∀ a y, us = a ++ AT :: y → AT ∉ a →
    ∀ r ∈ roster, mentionName r.name ≠ [] → ¬Reaches lower a r.name

/-- The member is called what was typed. -/
def Bears (lower : Units → Units) (name : Units) (r : Member) : Prop := mentionName r.name ≠ [] ∧ lower r.name = lower name

/-- The name that stands at a bare mention is one member's, or two of the longest fit, or the pick is one of these. -/
def Told (lower : Units → Units) (picked : Units → Option PubKey) (roster : List Member) (us : Units) : Prop :=
  ∀ first all, best lower roster us = some (first, all) →
    (∀ r ∈ roster, Bears lower (us.take first.name.length) r → r.pub.text = first.pub.text) ∨
    match picked (lower (mentionName first.name)) with
    | some chose => ∃ r ∈ all, r.pub.text = chose.text
    | none => ∃ r ∈ all, r.pub.text ≠ first.pub.text

theorem Bare.suffix {before : Option UInt16} {a s us : Units} (h : Bare (a.getLast?.or before) s us) : Bare before (a ++ s) us := by
  obtain ⟨pre, rfl, hopen, hm⟩ := h
  refine ⟨a ++ pre, by rw [List.append_assoc], ?_, hm⟩
  rwa [List.getLast?_append, Option.or_assoc]

theorem NoReach.suffix {before : Option UInt16} {a s : Units} (h : NoReach lower picked roster before (a ++ s)) :
    NoReach lower picked roster (a.getLast?.or before) s := fun us hbare => h us hbare.suffix

/-- Without an `@` all is kept. -/
theorem close_plain {a : Units} (h : AT ∉ a) (before : Option UInt16) (t : Units) :
    close lower picked roster before 0 (a ++ t) =
      a.map Segment.kept ++ close lower picked roster (a.getLast?.or before) 0 t := by
  induction a generalizing before with
  | nil => simp
  | cons u a ih =>
      have hu : u ≠ AT := fun hu => h (hu ▸ List.mem_cons_self)
      rw [List.cons_append, close_kept fun hat => absurd hat hu, ih fun hmem => h (List.mem_cons_of_mem u hmem), List.map_cons,
        List.cons_append]
      congr 3
      cases a with
      | nil => rfl
      | cons v a => simp [List.getLast?_cons]

/-- What stands before does not matter to a text that opens no word. -/
theorem close_before {s : Units} (h : s.head? ≠ some AT) (before before' : Option UInt16) :
    close lower picked roster before 0 s = close lower picked roster before' 0 s := by
  cases s with
  | nil => rfl
  | cons u s =>
      have hu : u ≠ AT := fun hu => h (congrArg some hu)
      rw [close_kept fun hat => absurd hat hu, close_kept fun hat => absurd hat hu]

theorem head_written (lower : Units → Units) (picked : Units → Option PubKey) (roster : List Member)
    {s : Units} (before : Option UInt16) (h : s.head? ≠ some AT) :
    ((close lower picked roster before 0 s).flatMap Segment.written).head? ≠ some AT := by
  obtain ⟨a, x, y, hs, ht, ha, hxy⟩ := same_close lower picked roster before s
  rw [ht]
  rw [hs] at h
  cases a with
  | cons v a => exact h
  | nil =>
      rcases hxy with ⟨-, rfl⟩ | ⟨hx, -⟩
      · simp
      · exact absurd hx h

/-- A second pass closes nothing. -/
theorem close_again (hl : Casing lower) (before : Option UInt16) (s : Units) (h : NoReach lower picked roster before s) :
    close lower picked roster before 0 ((close lower picked roster before 0 s).flatMap Segment.written) =
      ((close lower picked roster before 0 s).flatMap Segment.written).map Segment.kept := by
  induction before, s using close_induction lower picked roster with
  | nil before => rfl
  | kept before u us hkeep ih =>
      have hnext : NoReach lower picked roster (some u) us := NoReach.suffix (a := [u]) h
      have hsame := same_close lower picked roster (some u) us
      rw [close_kept hkeep, List.flatMap_cons, Segment.written, List.singleton_append, List.map_cons, ← ih hnext]
      apply close_kept
      rintro rfl hopen hm
      have hnone := hsame.mentionAfter_none hm
      have hres := hkeep rfl hopen hnone
      obtain ⟨a, x, y, hs, ht, ha, hxy⟩ := hsame
      rw [ht, ← hres, hs]
      symm
      apply resolve_same hl ha hxy
      intro hx r hr hname
      obtain ⟨z, rfl⟩ : ∃ z, x = AT :: z := by
        rcases hxy with ⟨rfl, -⟩ | ⟨hx', -⟩
        · exact absurd rfl hx
        · cases x with
          | nil => cases hx'
          | cons v z => exact ⟨z, by rw [Option.some.inj hx']⟩
      exact h us ⟨[], rfl, hopen, hnone⟩ hres a z hs ha r hr hname
  | closed before us m last hopen hm hres hlast hskip ih =>
      have hnext : NoReach lower picked roster last (us.drop m.name.length) := by
        have hsplit : AT :: us = (AT :: us.take m.name.length) ++ us.drop m.name.length := by
          rw [List.cons_append, List.take_append_drop]
        rw [hsplit] at h
        have hsuffix := h.suffix
        have hbefore : ((AT :: us.take m.name.length).getLast?).or before = last := by
          rw [hlast, List.getLast?_cons]
          cases (us.take m.name.length).getLast? <;> rfl
        rwa [hbefore] at hsuffix
      have hafter := (resolve_fits hres).2.2
      have hhead : (us.drop m.name.length).head? ≠ some AT := by
        intro hat
        have := hafter AT hat
        rw [isAfter_at] at this
        cases this
      have hw := head_written lower picked roster last hhead
      have hnext' : ∀ u ∈ ((close lower picked roster last 0 (us.drop m.name.length)).flatMap Segment.written).head?,
          isAlnum u = false := by
        intro u hu
        obtain ⟨a, x, y, hs, ht, ha, hxy⟩ := same_close lower picked roster last
          (us.drop m.name.length)
        rw [ht] at hu
        rw [hs] at hafter
        cases a with
        | cons v a => exact isAfter_alnum (hafter u hu)
        | nil =>
            rcases hxy with ⟨-, rfl⟩ | ⟨-, hy⟩
            · cases hu
            · rw [List.nil_append, hy] at hu
              rw [← Option.some.inj hu]
              decide
      rw [close_closed hopen hm hres, hskip, List.flatMap_cons, Segment.written, mentionText, List.cons_append, List.append_assoc,
        List.cons_append]
      have hfound := mentionAfter_text m.name m.pub _ hnext'
      rw [close_kept fun _ _ hnone => by rw [hfound] at hnone; cases hnone]
      have hassoc : ∀ t, mentionName m.name ++ HASH :: (pubHint m.pub ++ t) = (mentionName m.name ++ HASH :: pubHint m.pub) ++ t := by
        intro t
        simp
      rw [hassoc, close_plain (AT_notMem_text m.name m.pub), close_before hw _ last, ih hnext, List.map_cons, ← List.map_append]

/-! ## What closing a text does -/

/-- Closing again changes nothing; outside the names that are closed nothing changes; a name that members with different
keys bear is closed for the one that was picked; and each mention that is written is found, with the hint of its key. -/
structure Closes (lower : Units → Units) (picked : Units → Option PubKey) (roster : List Member) (text : Units) : Prop where
  again : closeMentions lower picked roster (closeMentions lower picked roster text) = closeMentions lower picked roster text
  outside : ∃ segs, text = segs.flatMap Segment.typed ∧
    closeMentions lower picked roster text = segs.flatMap Segment.written ∧
    ∀ a name m b, segs = a ++ .closed name m :: b → m ∈ roster ∧ Bears lower name m ∧
      ((∃ r ∈ roster, Bears lower name r ∧ r.pub.text ≠ m.pub.text) →
        ∃ r ∈ roster, Bears lower name r ∧ ∃ chose, picked (lower (mentionName r.name)) = some chose ∧
          chose.text = m.pub.text) ∧
      ∃ f ∈ findMentions (closeMentions lower picked roster text), f.start = (a.flatMap Segment.written).length ∧
        f.text = mentionText m.name m.pub ∧ f.hint = pubHint m.pub

/-- A mention that is told apart is closed for the member that was picked, or for the only one. -/
theorem Told.chosen (h : Told lower picked roster us) (hres : resolve lower picked roster us = some m) {r : Member}
    (hr : r ∈ roster) (hbears : Bears lower (us.take m.name.length) r) (hne : r.pub.text ≠ m.pub.text) :
    ∃ r ∈ roster, Bears lower (us.take m.name.length) r ∧ ∃ chose, picked (lower (mentionName r.name)) = some chose ∧
      chose.text = m.pub.text := by
  obtain ⟨first, all, hbest, hm, hpick⟩ := resolve_some hres
  obtain ⟨hfirst, hall⟩ := best_some hbest
  have hlen := ((hall m).mp hm).2.2
  obtain ⟨hfroster, hffits, -⟩ := (hall first).mp hfirst
  have hfbears : Bears lower (us.take m.name.length) first := ⟨hfroster.2, by rw [hlen]; exact (fits_iff.mp hffits).1.symm⟩
  have hmbears : Bears lower (us.take m.name.length) m := ⟨((hall m).mp hm).1.2, (resolve_fits hres).2.1.symm⟩
  rcases h first all hbest with hone | htold
  · rw [← hlen] at hone
    exact absurd ((hone r hr hbears).trans (hone m (resolve_fits hres).1.1 hmbears).symm) hne
  · rcases hpick with ⟨chose, hchose, hkey⟩ | ⟨hnone, hkeys⟩
    · rw [hchose] at htold
      obtain ⟨r', hr', hr'chose⟩ := htold
      rcases hkey with hkey | hno
      · exact ⟨first, hfroster.1, hfbears, chose, hchose, hkey.symm⟩
      · exact absurd hr'chose (hno r' hr')
    · rw [hnone] at htold
      obtain ⟨r', hr', hr'ne⟩ := htold
      exact absurd ((hkeys r' hr').trans (hkeys first hfirst).symm) hr'ne

theorem written_kept (s : Units) : (s.map Segment.kept).flatMap Segment.written = s := by
  induction s with
  | nil => rfl
  | cons u s ih => rw [List.map_cons, List.flatMap_cons, ih, Segment.written, List.singleton_append]

theorem typed_kept (s : Units) : (s.map Segment.kept).flatMap Segment.typed = s := by
  induction s with
  | nil => rfl
  | cons u s ih => rw [List.map_cons, List.flatMap_cons, ih, Segment.typed, List.singleton_append]

/-- ASCII in lower case. -/
def asciiLower (s : Units) : Units := s.map Descr.lowerUnit

theorem asciiLower_casing : Casing asciiLower where
  append a z := by rw [asciiLower, List.map_append, List.map_cons]; rfl
  mem a h := by
    obtain ⟨u, hu, hat⟩ := List.mem_map.mp h
    rw [Descr.lowerUnit] at hat
    split at hat
    · have hval := congrArg UInt16.toNat hat
      rw [UInt16.toNat_add] at hval
      have hsmall : (u.toNat + (32 : UInt16).toNat) % 2 ^ 16 = u.toNat + 32 := Nat.mod_eq_of_lt (by simp; omega)
      rw [hsmall] at hval
      have h64 : AT.toNat = 64 := rfl
      omega
    · rwa [← hat]

/-- A key of one byte again and again. -/
def keyOf (b : UInt8) : PubKey := ⟨Base64.btoa (List.replicate 32 b), List.replicate 32 b, Base64.atob_btoa _, List.length_replicate⟩

end EncedoChat.Mentions
