import EncedoChat.Lib.Blank
import EncedoChat.Descr.Text

/-!
# Mentions in a text

`mentionName`, `findMentions` and `splitByMentions` of `mentions.ts`.
-/

namespace EncedoChat.Mentions

open Units

/-- `@` -/
def AT : UInt16 := 0x40

/-- `#` -/
def HASH : UInt16 := 0x23

structure FoundMention where
  start : Nat
  end_ : Nat
  text : Units
  name : Units
  hint : Units
  deriving DecidableEq

/-- What may stand before the `@`: a blank, a bracket or a quote. -/
def isBoundary (u : UInt16) : Bool := isSpace u || u ∈ [(0x28 : UInt16), 0x5B, 0x7B, 0x22, 0x27, 0x201E, 0xAB]

/-- The `@` stands at the start, or after a boundary. -/
def opensWord : Option UInt16 → Bool
  | none => true
  | some u => isBoundary u

/-- `[0-9a-zA-Z]` -/
def isAlnum (u : UInt16) : Bool :=
  let n := u.toNat
  (48 ≤ n && n ≤ 57) || (97 ≤ n && n ≤ 122) || (65 ≤ n && n ≤ 90)

/-- `(?:[^\s@#]|[^\s@#][^@#\n]{0,46}[^\s@#])?`, of a text without `#` -/
def isName (name : Units) : Bool :=
  name.length ≤ 48 && AT ∉ name && (0x0A : UInt16) ∉ name && name.head?.all (fun u => !isSpace u) &&
    name.getLast?.all (fun u => !isSpace u)

/-- What `MENTION_RE` takes after the `@`: the name and the hint. A name has no `#`, so it ends at the first. -/
def mentionAfter (us : Units) : Option (Units × Units) :=
  let name := us.takeWhile (· ≠ HASH)
  let rest := us.dropWhile (· ≠ HASH)
  let hint := (rest.drop 1).take 8
  if isName name && rest.head? = some HASH && hint.length = 8 && hint.all (fun u => (Descr.hexValue u).isSome) &&
    (rest.drop 9).head?.all (fun u => !isAlnum u) then some (name, hint)
  else none

/-- `text.matchAll(MENTION_RE)` from a place on, with the character before it. No other `@` stands in what is matched. -/
def findFrom : Option UInt16 → Nat → Units → List FoundMention
  | _, _, [] => []
  | before, pos, u :: us =>
    (if u = AT ∧ opensWord before then
      match mentionAfter us with
      | some (name, hint) =>
        [⟨pos, pos + name.length + 10, AT :: (name ++ HASH :: hint), name, hint.map Descr.lowerUnit⟩]
      | none => []
    else []) ++ findFrom (some u) (pos + 1) us

def findMentions (text : Units) : List FoundMention := findFrom none 0 text

structure Piece where
  text : Units
  mention : Option FoundMention

/-- The loop of `splitByMentions`. -/
def splitFrom (text : Units) (from_ : Nat) : List FoundMention → List Piece
  | [] => if from_ < text.length then [⟨text.drop from_, none⟩] else []
  | f :: fs =>
    (if from_ < f.start then [⟨(text.take f.start).drop from_, none⟩] else []) ++
      ⟨f.text, some f⟩ :: splitFrom text f.end_ fs

def splitByMentions (text : Units) : List Piece :=
  if findMentions text = [] then [⟨text, none⟩] else splitFrom text 0 (findMentions text)

/-! ## Names that can be found -/

/-- `s.replace(/[@#]/g, '').replace(/\s+/g, ' ').trim().slice(0, 48).trim()` -/
def mentionName (name : Units) : Units :=
  trim ((trim (collapse false (name.filter fun u => u ≠ AT ∧ u ≠ HASH))).take 48)

theorem mem_mentionName {name : Units} {u : UInt16} (h : u ∈ mentionName name) :
    u ≠ AT ∧ u ≠ HASH ∧ (u = 0x20 ∨ isSpace u = false) := by
  have hcollapse := mem_trim (List.mem_of_mem_take (mem_trim h))
  rcases mem_collapse hcollapse with rfl | ⟨hmem, hspace⟩
  · exact ⟨by decide, by decide, .inl rfl⟩
  · have hno := of_decide_eq_true (List.mem_filter.mp hmem).2
    exact ⟨hno.1, hno.2, .inr hspace⟩

theorem isName_mentionName (name : Units) : isName (mentionName name) = true := by
  have htrim := trimmed_trim ((trim (collapse false (name.filter fun u => u ≠ AT ∧ u ≠ HASH))).take 48)
  have hlen : (mentionName name).length ≤ 48 := by
    refine (length_trim_le _).trans ?_
    rw [List.length_take]
    omega
  have hat : AT ∉ mentionName name := fun h => (mem_mentionName h).1 rfl
  have hnl : (0x0A : UInt16) ∉ mentionName name := by
    intro h
    rcases (mem_mentionName h).2.2 with h | h
    · cases h
    · exact absurd h (by decide)
  have hhead : (mentionName name).head?.all (fun u => !isSpace u) = true := by
    rw [Option.all_eq_true]
    intro u hu
    rw [htrim.head u hu]
    rfl
  have hlast : (mentionName name).getLast?.all (fun u => !isSpace u) = true := by
    rw [Option.all_eq_true]
    intro u hu
    rw [htrim.last u hu]
    rfl
  simp [isName, hlen, hat, hnl, hhead, hlast]

/-! ## Where mentions stand -/

variable {us vs name hint : Units}

theorem ne_of_not_mem {c : UInt16} {s : Units} (h : c ∉ s) : ∀ u ∈ s, decide (u ≠ c) = true := by
  intro u hu
  rw [decide_eq_true_iff]
  rintro rfl
  exact h hu

theorem takeWhile_mark {c : UInt16} {s : Units} (h : c ∉ s) (t : Units) : (s ++ c :: t).takeWhile (· ≠ c) = s := by
  rw [List.takeWhile_append_of_pos (ne_of_not_mem h)]
  simp

theorem dropWhile_mark {c : UInt16} {s : Units} (h : c ∉ s) (t : Units) : (s ++ c :: t).dropWhile (· ≠ c) = c :: t := by
  rw [List.dropWhile_append_of_pos (ne_of_not_mem h)]
  simp

/-- The shape of what is matched. -/
theorem mentionAfter_some (h : mentionAfter us = some (name, hint)) : ∃ rest, us = name ++ HASH :: (hint ++ rest) ∧
    isName name = true ∧ HASH ∉ name ∧ hint.length = 8 ∧ (∀ u ∈ hint, (Descr.hexValue u).isSome = true) ∧
    ∀ u ∈ rest.head?, isAlnum u = false := by
  simp only [mentionAfter] at h
  split at h
  · rename_i hok
    simp only [Bool.and_eq_true, decide_eq_true_iff] at hok
    obtain ⟨⟨⟨⟨hname, hhash⟩, hlen⟩, hhex⟩, hnext⟩ := hok
    rw [Option.some.injEq, Prod.mk.injEq] at h
    obtain ⟨rfl, rfl⟩ := h
    have hnot : HASH ∉ us.takeWhile (· ≠ HASH) := by
      intro hmem
      have := List.mem_takeWhile_imp hmem
      simp at this
    obtain ⟨r, hr⟩ : ∃ r, us.dropWhile (· ≠ HASH) = HASH :: r := by
      cases hd : us.dropWhile (· ≠ HASH) with
      | nil =>
          rw [hd] at hhash
          cases hhash
      | cons v r =>
          rw [hd] at hhash
          exact ⟨r, by rw [Option.some.inj hhash]⟩
    have hsplit := List.takeWhile_append_dropWhile (p := fun u => decide (u ≠ HASH)) (l := us)
    rw [hr] at hlen hhex hnext hsplit ⊢
    refine ⟨r.drop 8, ?_, hname, hnot, hlen, List.all_eq_true.mp hhex, ?_⟩
    · rw [List.drop_one, List.tail_cons, List.take_append_drop]
      exact hsplit.symm
    · intro u hu
      rw [Option.all_eq_true] at hnext
      simpa using hnext u hu
  · cases h

theorem mentionAfter_mk {rest : Units} (hname : isName name = true) (hhash : HASH ∉ name) (hlen : hint.length = 8)
    (hhex : ∀ u ∈ hint, (Descr.hexValue u).isSome = true) (hnext : ∀ u ∈ rest.head?, isAlnum u = false) :
    mentionAfter (name ++ HASH :: (hint ++ rest)) = some (name, hint) := by
  have htake := takeWhile_mark hhash (hint ++ rest)
  have hdrop := dropWhile_mark hhash (hint ++ rest)
  have hnine : (HASH :: (hint ++ rest)).drop 9 = rest := by
    rw [List.drop_succ_cons, List.drop_append, hlen, List.drop_eq_nil_of_le (by omega)]
    simp
  have height : ((HASH :: (hint ++ rest)).drop 1).take 8 = hint := by
    rw [List.drop_one, List.tail_cons, List.take_append, hlen, List.take_of_length_le (by omega)]
    simp
  have hall : rest.head?.all (fun u => !isAlnum u) = true := by
    rw [Option.all_eq_true]
    intro u hu
    rw [hnext u hu]
    rfl
  have hdigits : hint.all (fun u => (Descr.hexValue u).isSome) = true := List.all_eq_true.mpr hhex
  simp only [mentionAfter, htake, hdrop, hnine, height, hname, hlen, hdigits, hall]
  rfl

theorem AT_notMem_hint (h : ∀ u ∈ hint, (Descr.hexValue u).isSome = true) : AT ∉ hint := by
  intro hmem
  exact absurd (h AT hmem) (by decide)

theorem AT_notMem_name (h : isName name = true) : AT ∉ name := by
  simp only [isName, Bool.and_eq_true, decide_eq_true_iff] at h
  exact h.1.1.1.2

/-- Nothing is found without an `@`. -/
theorem findFrom_plain {a : Units} (h : AT ∉ a) (before : Option UInt16) (pos : Nat) (b : Units) :
    findFrom before pos (a ++ b) = findFrom ((a.getLast?).or before) (pos + a.length) b := by
  induction a generalizing before pos with
  | nil => simp
  | cons u a ih =>
      have hu : ¬(u = AT ∧ opensWord before) := by
        rintro ⟨rfl, -⟩
        exact h List.mem_cons_self
      rw [List.cons_append, findFrom, if_neg hu, List.nil_append, ih fun hmem => h (List.mem_cons_of_mem u hmem)]
      congr 1
      · cases a with
        | nil => rfl
        | cons v a => simp [List.getLast?_cons]
      · rw [List.length_cons]
        omega

/-- A mention that is found: its place, and where the search goes on. -/
theorem findFrom_mention {before : Option UInt16} (ho : opensWord before = true) (pos : Nat)
    (h : mentionAfter us = some (name, hint)) : ∃ last rest, us = name ++ HASH :: (hint ++ rest) ∧ hint.length = 8 ∧
    findFrom before pos (AT :: us) =
      ⟨pos, pos + name.length + 10, AT :: (name ++ HASH :: hint), name, hint.map Descr.lowerUnit⟩ ::
        findFrom (some last) (pos + name.length + 10) rest := by
  obtain ⟨rest, rfl, hname, -, hlen, hhex, -⟩ := mentionAfter_some h
  have hplain : AT ∉ name ++ HASH :: hint := by
    simp only [List.mem_append, List.mem_cons, not_or]
    exact ⟨AT_notMem_name hname, by decide, AT_notMem_hint hhex⟩
  have hne : hint ≠ [] := by
    rintro rfl
    cases hlen
  refine ⟨hint.getLast hne, rest, rfl, hlen, ?_⟩
  have hassoc : name ++ HASH :: (hint ++ rest) = (name ++ HASH :: hint) ++ rest := by simp
  have hlast : (name ++ HASH :: hint).getLast? = some (hint.getLast hne) := by
    rw [List.getLast?_append, List.getLast?_cons_of_ne_nil hne, List.getLast?_eq_some_getLast hne]
    rfl
  have hpos : pos + 1 + (name.length + (8 + 1)) = pos + name.length + 10 := by omega
  rw [findFrom, if_pos ⟨rfl, ho⟩, h]
  dsimp only
  rw [hassoc, findFrom_plain hplain, hlast]
  simp only [List.singleton_append, Option.some_or, List.length_append, List.length_cons, hlen, hpos]

/-- The search goes on with what is no mention. -/
theorem findFrom_next {u : UInt16} {before : Option UInt16} (h : ¬(u = AT ∧ opensWord before = true ∧ (mentionAfter us).isSome = true))
    (pos : Nat) : findFrom before pos (u :: us) = findFrom (some u) (pos + 1) us := by
  rw [findFrom]
  split
  · rename_i hopen
    cases hm : mentionAfter us with
    | none => rfl
    | some r => exact absurd ⟨hopen.1, hopen.2, by rw [hm]; rfl⟩ h
  · rfl

/-! ## The pieces of a text -/

/-- Pieces that make up a text from a place on, with the mentions in it. -/
structure Covers (text : Units) (from_ : Nat) (found : List FoundMention) (pieces : List Piece) : Prop where
  whole : pieces.flatMap (fun p => p.text) = text.drop from_
  mentions : pieces.filterMap (fun p => p.mention) = found
  texts : ∀ p ∈ pieces, ∀ f, p.mention = some f → p.text = f.text
  places : ∀ f ∈ found, (text.take f.end_).drop f.start = f.text

theorem splitFrom_covers (s : Units) (pre : Units) (before : Option UInt16) {k : Nat} (hk : k ≤ pre.length) :
    Covers (pre ++ s) k (findFrom before pre.length s) (splitFrom (pre ++ s) k (findFrom before pre.length s)) := by
  match s with
  | [] =>
      rw [findFrom, splitFrom, List.append_nil]
      split
      · exact ⟨by simp, rfl, by simp, by simp⟩
      · rename_i hlen
        exact ⟨by rw [List.drop_eq_nil_of_le (by omega)]; rfl, rfl, by simp, by simp⟩
  | u :: us =>
      by_cases hfound : u = AT ∧ opensWord before = true ∧ (mentionAfter us).isSome = true
      · obtain ⟨rfl, hopen, hsome⟩ := hfound
        obtain ⟨⟨name, hint⟩, hm⟩ := Option.isSome_iff_exists.mp hsome
        obtain ⟨last, rest, rfl, hlen, hfind⟩ := findFrom_mention hopen pre.length hm
        have hsplit : pre ++ AT :: (name ++ HASH :: (hint ++ rest)) = pre ++ AT :: (name ++ HASH :: hint) ++ rest := by simp
        have hend : (pre ++ AT :: (name ++ HASH :: hint)).length = pre.length + name.length + 10 := by
          simp only [List.length_append, List.length_cons, hlen]
          omega
        have ih := splitFrom_covers rest (pre ++ AT :: (name ++ HASH :: hint)) (some last) (k := pre.length + name.length + 10) hend.ge
        rw [hend, ← hsplit] at ih
        have hplace : ((pre ++ AT :: (name ++ HASH :: (hint ++ rest))).take (pre.length + name.length + 10)).drop pre.length =
            AT :: (name ++ HASH :: hint) := by
          rw [hsplit, ← hend, List.take_left, List.drop_left]
        have hdrop : (pre ++ AT :: (name ++ HASH :: (hint ++ rest))).drop (pre.length + name.length + 10) = rest := by
          rw [hsplit, ← hend, List.drop_left]
        have hkeep : (if k < pre.length then [(⟨pre.drop k, none⟩ : Piece)] else []).flatMap (fun p => p.text) = pre.drop k ∧
            (if k < pre.length then [(⟨pre.drop k, none⟩ : Piece)] else []).filterMap (fun p => p.mention) = [] := by
          split
          · simp
          · rw [List.drop_eq_nil_of_le (by omega)]
            simp
        rw [hfind, splitFrom]
        dsimp only
        rw [List.take_left]
        refine ⟨?_, ?_, ?_, ?_⟩
        · rw [List.flatMap_append, List.flatMap_cons, ih.whole, hkeep.1, hdrop, List.drop_append_of_le_length hk]
          simp
        · rw [List.filterMap_append, hkeep.2, List.nil_append, List.filterMap_cons, ih.mentions]
        · intro p hp f hf
          rcases List.mem_append.mp hp with hp | hp
          · split at hp
            · rw [List.mem_singleton.mp hp] at hf
              cases hf
            · cases hp
          · rcases List.mem_cons.mp hp with rfl | hp
            · exact congrArg FoundMention.text (Option.some.inj hf)
            · exact ih.texts p hp f hf
        · intro f hf
          rcases List.mem_cons.mp hf with rfl | hf
          · exact hplace
          · exact ih.places f hf
      · have hsplit : pre ++ u :: us = (pre ++ [u]) ++ us := by simp
        have hlen : (pre ++ [u]).length = pre.length + 1 := by simp
        have ih := splitFrom_covers us (pre ++ [u]) (some u) (k := k) (by omega)
        rw [hlen, ← hsplit] at ih
        rwa [findFrom_next hfound]
termination_by s.length

theorem splitByMentions_covers (text : Units) : Covers text 0 (findMentions text) (splitByMentions text) := by
  rw [splitByMentions]
  split
  · rename_i hnone
    rw [hnone]
    exact ⟨by simp, rfl, by simp, by simp⟩
  · exact splitFrom_covers text [] none (Nat.zero_le _)

end EncedoChat.Mentions
