import EncedoChat.Lib.Characters
import Mathlib.Data.Rat.Defs
import Mathlib.Algebra.Field.Rat

/-!
# JSON as text

`JSON.stringify` and `JSON.parse` over the units of a string. A number is a double, or beyond the doubles; how a double is
rounded to and written is a parameter, of which what the language promises is known.
-/

namespace EncedoChat.JsonText

open Units

inductive Number where
  /-- `-0` is `0` here -/
  | finite (q : Rat)
  | infinity (negative : Bool)
  deriving DecidableEq

inductive Value where
  | null
  | bool (b : Bool)
  | num (x : Number)
  | str (s : Units)
  | arr (xs : List Value)
  /-- each key once -/
  | obj (kvs : List (Units × Value))

/-! ## Numerals -/

def isDigit (u : UInt16) : Bool := 0x30 ≤ u && u ≤ 0x39

/-- What a numeral is written with. -/
def isNumeralUnit (u : UInt16) : Bool := isDigit u || u = 0x2B || u = 0x2D || u = 0x2E || u = 0x45 || u = 0x65

def digitsValue (s : Units) : Nat := s.foldl (fun n u => n * 10 + (u.toNat - 48)) 0

/-- A point and digits, or nothing. -/
def fraction (s : Units) : Option (Units × Units) :=
  if s.head? = some 0x2E then
    if s.tail.takeWhile isDigit = [] then none else some (s.tail.takeWhile isDigit, s.tail.dropWhile isDigit)
  else some ([], s)

/-- `e`, a sign and digits, or nothing. -/
def exponent (s : Units) : Option Int :=
  if s = [] then some 0
  else if s.head? = some 0x45 ∨ s.head? = some 0x65 then
    let t := s.tail
    let digits := if t.head? = some 0x2B ∨ t.head? = some 0x2D then t.tail else t
    if digits ≠ [] ∧ digits.all isDigit then
      some (if t.head? = some 0x2D then -(digitsValue digits : Int) else digitsValue digits)
    else none
  else none

/-- The value of a numeral, before it is rounded. -/
def numeral (s : Units) : Option Rat := do
  let negative := s.head? = some 0x2D
  let s := if negative then s.tail else s
  let whole := s.takeWhile isDigit
  if whole = [] ∨ whole.head? = some 0x30 ∧ 1 < whole.length then none
  else
    let (frac, r) ← fraction (s.dropWhile isDigit)
    let e ← exponent r
    return (if negative then -1 else 1) * (digitsValue (whole ++ frac) : Rat) * (10 : Rat) ^ (e - frac.length)

/-- The doubles: a number is rounded to one, and one is written so that it is read back. -/
structure Doubles where
  round : Rat → Number
  write : Rat → Units
  round_round : ∀ {q r}, round q = .finite r → round r = .finite r
  round_nat : ∀ {n : Nat}, n < 2 ^ 53 → round n = .finite n
  write_nat : ∀ {n : Nat}, n < 2 ^ 53 → write n = Units.num n
  write_units : ∀ {q}, round q = .finite q → write q ≠ [] ∧ ∀ u ∈ write q, isNumeralUnit u = true
  read_write : ∀ {q}, round q = .finite q → ∃ x, numeral (write q) = some x ∧ round x = .finite q

/-! ## Writing -/

section
variable (F : Doubles)

mutual

/-- `JSON.stringify(v)` -/
def stringify : Value → Units
  | .null | .num (.infinity _) => ascii "null"
  | .bool true => ascii "true"
  | .bool false => ascii "false"
  | .num (.finite q) => F.write q
  | .str s => quote s
  | .arr [] => [0x5B, 0x5D]
  | .arr (x :: xs) => 0x5B :: (stringify x ++ stringifyItems xs)
  | .obj [] => [0x7B, 0x7D]
  | .obj ((k, v) :: kvs) => 0x7B :: (quote k ++ 0x3A :: (stringify v ++ stringifyMembers kvs))

/-- The other items, and the bracket. -/
def stringifyItems : List Value → Units
  | [] => [0x5D]
  | x :: xs => 0x2C :: (stringify x ++ stringifyItems xs)

/-- The other members, and the brace. -/
def stringifyMembers : List (Units × Value) → Units
  | [] => [0x7D]
  | (k, v) :: kvs => 0x2C :: (quote k ++ 0x3A :: (stringify v ++ stringifyMembers kvs))

end

end

/-! ## Reading -/

def isBlank (u : UInt16) : Bool := u = 0x20 || u = 9 || u = 10 || u = 13

def skip (s : Units) : Units := s.dropWhile isBlank

def hexValue (u : UInt16) : Option Nat :=
  let n := u.toNat
  if 48 ≤ n ∧ n ≤ 57 then some (n - 48)
  else if 97 ≤ n ∧ n ≤ 102 then some (n - 87)
  else if 65 ≤ n ∧ n ≤ 70 then some (n - 55)
  else none

/-- The four digits of `\uXXXX`. -/
def hexUnit (a b c d : UInt16) : Option UInt16 := do
  let a ← hexValue a
  let b ← hexValue b
  let c ← hexValue c
  let d ← hexValue d
  return UInt16.ofNat (a * 4096 + b * 256 + c * 16 + d)

/-- What stands for a unit behind a backslash. -/
def unescape (u : UInt16) : Option UInt16 :=
  if u = 0x22 ∨ u = 0x5C ∨ u = 0x2F then some u
  else if u = 0x62 then some 8
  else if u = 0x66 then some 12
  else if u = 0x6E then some 10
  else if u = 0x72 then some 13
  else if u = 0x74 then some 9
  else none

/-- A string up to its closing quote, and what follows. -/
def readString : Units → Option (Units × Units)
  | [] => none
  | u :: s =>
    if u = 0x22 then some ([], s)
    else if u = 0x5C then
      match s with
      | [] => none
      | e :: s =>
        if e = 0x75 then
          match s with
          | a :: b :: c :: d :: s => do
            let v ← hexUnit a b c d
            let (t, r) ← readString s
            return (v :: t, r)
          | _ => none
        else do
          let v ← unescape e
          let (t, r) ← readString s
          return (v :: t, r)
    else if u < 0x20 then none
    else do
      let (t, r) ← readString s
      return (u :: t, r)

/-- A key given again has its last value, in its first place. -/
def upsert (kvs : List (Units × Value)) (k : Units) (v : Value) : List (Units × Value) :=
  if k ∈ kvs.map Prod.fst then kvs.map fun e => if e.1 = k then (k, v) else e else kvs ++ [(k, v)]

section
variable (F : Doubles)

mutual

/-- A value in front of a text, and what follows. -/
def readValue : Nat → Units → Option (Value × Units)
  | 0, _ => none
  | fuel + 1, s =>
    let s := skip s
    match s with
    | [] => none
    | u :: r =>
      if u = 0x22 then (readString r).map fun (t, r) => (.str t, r)
      else if u = 0x5B then
        if (skip r).head? = some 0x5D then some (.arr [], (skip r).tail)
        else do
          let (x, r) ← readValue fuel r
          let (xs, r) ← readItems fuel r
          return (.arr (x :: xs), r)
      else if u = 0x7B then
        if (skip r).head? = some 0x7D then some (.obj [], (skip r).tail)
        else do
          let (k, v, r) ← readMember fuel r
          let (kvs, r) ← readMembers fuel [(k, v)] r
          return (.obj kvs, r)
      else if (ascii "null").isPrefixOf s then some (.null, s.drop 4)
      else if (ascii "true").isPrefixOf s then some (.bool true, s.drop 4)
      else if (ascii "false").isPrefixOf s then some (.bool false, s.drop 5)
      else (numeral (s.takeWhile isNumeralUnit)).map fun q => (.num (F.round q), s.dropWhile isNumeralUnit)

/-- The other items of an array. -/
def readItems : Nat → Units → Option (List Value × Units)
  | 0, _ => none
  | fuel + 1, s =>
    match skip s with
    | [] => none
    | u :: r =>
      if u = 0x5D then some ([], r)
      else if u = 0x2C then do
        let (x, r) ← readValue fuel r
        let (xs, r) ← readItems fuel r
        return (x :: xs, r)
      else none

/-- A key, a colon and a value. -/
def readMember : Nat → Units → Option (Units × Value × Units)
  | 0, _ => none
  | fuel + 1, s =>
    match skip s with
    | [] => none
    | u :: r =>
      if u = 0x22 then do
        let (k, r) ← readString r
        if (skip r).head? = some 0x3A then
          let (v, r) ← readValue fuel (skip r).tail
          return (k, v, r)
        else none
      else none

/-- The other members of an object. -/
def readMembers : Nat → List (Units × Value) → Units → Option (List (Units × Value) × Units)
  | 0, _, _ => none
  | fuel + 1, kvs, s =>
    match skip s with
    | [] => none
    | u :: r =>
      if u = 0x7D then some (kvs, r)
      else if u = 0x2C then do
        let (k, v, r) ← readMember fuel r
        readMembers fuel (upsert kvs k v) r
      else none

end

/-- `JSON.parse(s)`; none is what it throws of. A text is long enough for all that is read of it. -/
def parse (s : Units) : Option Value :=
  match readValue F (4 * s.length + 4) s with
  | some (v, r) => if skip r = [] then some v else none
  | none => none

end

/-! ## What is written is read -/

mutual

/-- The numbers are of a kind, and an object has each key once. -/
def Value.All (p : Number → Prop) : Value → Prop
  | .null | .bool _ | .str _ => True
  | .num x => p x
  | .arr xs => AllItems p xs
  | .obj kvs => (kvs.map Prod.fst).Nodup ∧ AllMembers p kvs

def AllItems (p : Number → Prop) : List Value → Prop
  | [] => True
  | x :: xs => x.All p ∧ AllItems p xs

def AllMembers (p : Number → Prop) : List (Units × Value) → Prop
  | [] => True
  | (_, v) :: kvs => v.All p ∧ AllMembers p kvs

end

mutual

/-- The numbers are of a kind; a key may come again. -/
def Value.Each (p : Number → Prop) : Value → Prop
  | .null | .bool _ | .str _ => True
  | .num x => p x
  | .arr xs => EachItem p xs
  | .obj kvs => EachMember p kvs

def EachItem (p : Number → Prop) : List Value → Prop
  | [] => True
  | x :: xs => x.Each p ∧ EachItem p xs

def EachMember (p : Number → Prop) : List (Units × Value) → Prop
  | [] => True
  | (_, v) :: kvs => v.Each p ∧ EachMember p kvs

end

mutual

/-- What is left of a value when a key that comes again has its last value. -/
def Value.merge : Value → Value
  | .arr xs => .arr (mergeItems xs)
  | .obj kvs => .obj (mergeMembers [] kvs)
  | v => v

def mergeItems : List Value → List Value
  | [] => []
  | x :: xs => x.merge :: mergeItems xs

def mergeMembers (acc : List (Units × Value)) : List (Units × Value) → List (Units × Value)
  | [] => acc
  | (k, v) :: kvs => mergeMembers (upsert acc k v.merge) kvs

end

section
variable {F : Doubles}

/-- A finite number, and a double. -/
def Doubles.Holds (F : Doubles) (x : Number) : Prop := ∃ q, x = .finite q ∧ F.round q = .finite q

/-- What no numeral goes on with. -/
def Stops (t : Units) : Prop := ∀ u ∈ t.head?, isNumeralUnit u = false

theorem stops_cons {u : UInt16} (h : isNumeralUnit u = false) (t : Units) : Stops (u :: t) := by
  intro v hv
  obtain rfl := Option.some.inj hv
  exact h

theorem skip_cons {u : UInt16} (h : isBlank u = false) (t : Units) : skip (u :: t) = u :: t := by
  rw [skip, List.dropWhile_cons_of_neg]
  rw [h]
  exact Bool.false_ne_true

theorem numeralUnit_facts {u : UInt16} (h : isNumeralUnit u = true) :
    isBlank u = false ∧ u ≠ 0x22 ∧ u ≠ 0x5B ∧ u ≠ 0x7B ∧ u ≠ 0x6E ∧ u ≠ 0x74 ∧ u ≠ 0x66 := by
  simp only [isNumeralUnit, isDigit, Bool.or_eq_true, Bool.and_eq_true, decide_eq_true_eq, UInt16.le_iff_toNat_le,
    ← UInt16.toNat_inj] at h
  simp only [isBlank, Bool.or_eq_false_iff, decide_eq_false_iff_not, ne_eq, ← UInt16.toNat_inj]
  simp only [UInt16.reduceToNat] at h ⊢
  omega

/-! ### Strings -/

theorem hexValue_hexDigit : ∀ n < 16, hexValue (hexDigit n) = some n := by decide

theorem hexUnit_escape (u : UInt16) : hexUnit (hexDigit (u.toNat / 4096)) (hexDigit (u.toNat / 256 % 16))
    (hexDigit (u.toNat / 16 % 16)) (hexDigit (u.toNat % 16)) = some u := by
  have hu := u.toNat_lt
  have hval : u.toNat / 4096 * 4096 + u.toNat / 256 % 16 * 256 + u.toNat / 16 % 16 * 16 + u.toNat % 16 = u.toNat := by omega
  simp only [hexUnit, hexValue_hexDigit _ (show u.toNat / 4096 < 16 by omega),
    hexValue_hexDigit _ (Nat.mod_lt _ (by decide : 0 < 16)),
    Option.bind_eq_bind, Option.bind_some, hval, UInt16.ofNat_toNat]
  rfl

theorem readString_plain {u : UInt16} (hq : u ≠ 0x22) (hb : u ≠ 0x5C) (hc : ¬u < 0x20) (s : Units) :
    readString (u :: s) = (readString s).map fun (t, r) => (u :: t, r) := by
  rw [readString.eq_def]
  simp only [if_neg hq, if_neg hb, if_neg hc]
  cases readString s <;> rfl

theorem readString_unescape {e v : UInt16} (he : e ≠ 0x75) (hv : unescape e = some v) (s : Units) :
    readString (0x5C :: e :: s) = (readString s).map fun (t, r) => (v :: t, r) := by
  rw [readString.eq_def]
  simp only [if_neg (by decide : ¬(0x5C : UInt16) = 0x22), if_pos, if_neg he, hv]
  cases readString s <;> rfl

theorem readString_escapeUnit (u : UInt16) (s : Units) :
    readString (escapeUnit u ++ s) = (readString s).map fun (t, r) => (u :: t, r) := by
  have hlist : escapeUnit u ++ s = 0x5C :: 0x75 :: hexDigit (u.toNat / 4096) :: hexDigit (u.toNat / 256 % 16) ::
    hexDigit (u.toNat / 16 % 16) :: hexDigit (u.toNat % 16) :: s := rfl
  rw [hlist, readString.eq_def]
  simp only [if_neg (by decide : ¬(0x5C : UInt16) = 0x22), if_pos, hexUnit_escape]
  cases readString s <;> rfl

theorem readString_one (u : UInt16) (s : Units) :
    readString (escape [u] ++ s) = (readString s).map fun (t, r) => (u :: t, r) := by
  rw [escape]
  split
  · rename_i h
    subst h
    exact readString_unescape (by decide) (by decide) s
  split
  · rename_i h
    subst h
    exact readString_unescape (by decide) (by decide) s
  split
  · rename_i h
    subst h
    exact readString_unescape (by decide) (by decide) s
  split
  · rename_i h
    subst h
    exact readString_unescape (by decide) (by decide) s
  split
  · rename_i h
    subst h
    exact readString_unescape (by decide) (by decide) s
  split
  · rename_i h
    rw [Bool.or_eq_true, decide_eq_true_eq, decide_eq_true_eq] at h
    rcases h with rfl | rfl
    · exact readString_unescape (by decide) (by decide) s
    · exact readString_unescape (by decide) (by decide) s
  split
  · exact readString_escapeUnit u s
  · rename_i hquote hunit
    simp only [Bool.or_eq_true, decide_eq_true_eq, not_or] at hquote hunit
    exact readString_plain hquote.1 hquote.2 hunit.1.1 s

theorem readString_quote (t : Units) : readString (0x22 :: t) = some ([], t) := by
  rw [readString.eq_def]
  rfl

/-- A string is read up to its quote. -/
theorem readString_escape (s t : Units) : readString ((points s).flatMap escape ++ 0x22 :: t) = some (s, t) := by
  fun_induction points s with
  | case1 => exact readString_quote t
  | case2 u =>
      rw [List.flatMap_cons, List.flatMap_nil, List.append_nil, readString_one, readString_quote]
      rfl
  | case3 u l us hpair ih =>
      obtain ⟨hu, hl⟩ := Bool.and_eq_true_iff.mp hpair
      have hplain : ∀ {v : UInt16}, 0xD800 ≤ v.toNat → v ≠ 0x22 ∧ v ≠ 0x5C ∧ ¬v < 0x20 := by
        intro v hv
        simp only [ne_eq, ← UInt16.toNat_inj, UInt16.lt_iff_toNat_lt, UInt16.reduceToNat]
        omega
      obtain ⟨hq, hb, hc⟩ := hplain ((isHigh_iff u).mp hu).1
      have hlow := ((isLow_iff l).mp hl).1
      obtain ⟨hq', hb', hc'⟩ := hplain (v := l) (by omega)
      rw [List.flatMap_cons, escape.eq_2 _ (by simp), List.append_assoc, List.cons_append, List.cons_append, List.nil_append,
        readString_plain hq hb hc, readString_plain hq' hb' hc', ih]
      rfl
  | case4 u l us hpair ih =>
      rw [List.flatMap_cons, List.append_assoc, readString_one, ih]
      rfl

theorem quote_append (s t : Units) : quote s ++ t = 0x22 :: ((points s).flatMap escape ++ 0x22 :: t) := by
  rw [quote, List.cons_append, List.append_assoc]
  rfl

/-! ### Values -/

theorem upsert_new {kvs : List (Units × Value)} {k : Units} (h : k ∉ kvs.map Prod.fst) (v : Value) :
    upsert kvs k v = kvs ++ [(k, v)] := if_neg h

theorem keys_upsert_old {kvs : List (Units × Value)} {k : Units} (h : k ∈ kvs.map Prod.fst) (v : Value) :
    (upsert kvs k v).map Prod.fst = kvs.map Prod.fst := by
  rw [upsert, if_pos h, List.map_map, List.map_inj_left]
  intro e _
  dsimp only [Function.comp]
  split
  · rename_i he
    exact he.symm
  · rfl

theorem ascii_numeralUnit {u : UInt16} (h : isNumeralUnit u = true) : Ascii u := by
  simp only [isNumeralUnit, isDigit, Bool.or_eq_true, Bool.and_eq_true, decide_eq_true_eq, UInt16.le_iff_toNat_le,
    ← UInt16.toNat_inj] at h
  rw [Ascii, UInt16.lt_iff_toNat_lt]
  simp only [UInt16.reduceToNat] at h ⊢
  omega

/-- What a value begins with: no blank, and no bracket that closes. -/
structure Begins (u : UInt16) : Prop where
  ascii : Ascii u
  blank : isBlank u = false
  close : u ≠ 0x5D

instance (u : UInt16) : Decidable (Begins u) :=
  decidable_of_iff (u < 0x80 ∧ isBlank u = false ∧ u ≠ 0x5D)
    ⟨fun ⟨h₁, h₂, h₃⟩ => ⟨h₁, h₂, h₃⟩, fun ⟨h₁, h₂, h₃⟩ => ⟨h₁, h₂, h₃⟩⟩

theorem stringify_head (v : Value) (h : v.Each F.Holds) : ∃ u s, stringify F v = u :: s ∧ Begins u := by
  cases v with
  | null => exact ⟨_, _, by rw [stringify]; rfl, by decide⟩
  | bool b => cases b <;> exact ⟨_, _, by rw [stringify]; rfl, by decide⟩
  | num x =>
      obtain ⟨q, rfl, hq⟩ := h
      obtain ⟨hne, hunits⟩ := F.write_units hq
      obtain ⟨u, s, hus⟩ := List.exists_cons_of_ne_nil hne
      have hu := hunits u (hus ▸ List.mem_cons_self)
      refine ⟨u, s, by rw [stringify, hus], ascii_numeralUnit hu, (numeralUnit_facts hu).1, ?_⟩
      rintro rfl
      exact absurd hu (by decide)
  | str s => exact ⟨_, _, by rw [stringify, quote], by decide⟩
  | arr xs => cases xs <;> exact ⟨_, _, by rw [stringify], by decide⟩
  | obj kvs => cases kvs <;> exact ⟨_, _, by rw [stringify], by decide⟩

theorem stringify_ne_nil (v : Value) (h : v.Each F.Holds) : stringify F v ≠ [] := by
  obtain ⟨u, s, hus, -⟩ := stringify_head v h
  rw [hus]
  exact List.cons_ne_nil u s

theorem stops_items (xs : List Value) (t : Units) : Stops (stringifyItems F xs ++ t) := by
  cases xs <;> exact stops_cons (by decide) _

theorem stops_members (kvs : List (Units × Value)) (t : Units) : Stops (stringifyMembers F kvs ++ t) := by
  obtain _ | ⟨⟨k, v⟩, kvs⟩ := kvs <;> exact stops_cons (by decide) _

/-- A member, if its value is read. -/
theorem readMember_quote {v w : Value} {fuel : Nat} {t : Units} (k : Units)
    (h : readValue F fuel (stringify F v ++ t) = some (w, t)) :
    readMember F (fuel + 1) (quote k ++ 0x3A :: (stringify F v ++ t)) = some (k, w, t) := by
  rw [quote_append, readMember]
  simp only [skip_cons (by decide : isBlank 0x22 = false), skip_cons (by decide : isBlank 0x3A = false), readString_escape,
    if_pos, Option.bind_eq_bind, Option.bind_some, List.head?_cons, List.tail_cons, h]
  rfl

theorem readValue_num {q : Rat} (hq : F.round q = .finite q) {fuel : Nat} {t : Units} (ht : Stops t) :
    readValue F (fuel + 1) (F.write q ++ t) = some (.num (.finite q), t) := by
  obtain ⟨hne, hunits⟩ := F.write_units hq
  obtain ⟨x, hx, hround⟩ := F.read_write hq
  obtain ⟨u, s, hus⟩ := List.exists_cons_of_ne_nil hne
  obtain ⟨hblank, hquote, hbracket, hbrace, hn, ht', hf⟩ := numeralUnit_facts (hunits u (hus ▸ List.mem_cons_self))
  have htake : (F.write q ++ t).takeWhile isNumeralUnit = F.write q := by
    rw [List.takeWhile_append_of_pos hunits]
    cases t with
    | nil => rw [List.takeWhile_nil, List.append_nil]
    | cons w t =>
        rw [List.takeWhile_cons_of_neg (by rw [ht w rfl]; exact Bool.false_ne_true), List.append_nil]
  have hdrop : (F.write q ++ t).dropWhile isNumeralUnit = t := by
    rw [List.dropWhile_append_of_pos hunits]
    cases t with
    | nil => rfl
    | cons w t => rw [List.dropWhile_cons_of_neg (by rw [ht w rfl]; exact Bool.false_ne_true)]
  have hlit : ∀ {w : UInt16} {l : Units}, u ≠ w → (w :: l).isPrefixOf (F.write q ++ t) = false := by
    intro w l hw
    rw [hus, List.cons_append, List.isPrefixOf_cons_cons, beq_eq_false_iff_ne.mpr (Ne.symm hw), Bool.false_and]
  have hskip : skip (F.write q ++ t) = F.write q ++ t := by
    rw [hus, List.cons_append, skip_cons hblank]
  rw [readValue]
  simp only [hskip]
  conv => lhs; rw [hus]
  simp only [List.cons_append, if_neg hquote, if_neg hbracket, if_neg hbrace]
  rw [← List.cons_append, ← hus, htake, hdrop, hx, Option.map_some, hround]
  have hnull : (ascii "null").isPrefixOf (F.write q ++ t) = false := hlit hn
  have htrue : (ascii "true").isPrefixOf (F.write q ++ t) = false := hlit ht'
  have hfalse : (ascii "false").isPrefixOf (F.write q ++ t) = false := hlit hf
  simp [hnull, htrue, hfalse]

mutual

/-- A value that is written is read, whatever follows it, but for its keys that come again. -/
theorem readValue_stringify (v : Value) (h : v.Each F.Holds) (fuel : Nat) (hf : 2 * (stringify F v).length ≤ fuel) {t : Units}
    (ht : Stops t) : readValue F fuel (stringify F v ++ t) = some (v.merge, t) := by
  have hpos := List.length_pos_of_ne_nil (stringify_ne_nil v h)
  obtain ⟨fuel, rfl⟩ : ∃ n, fuel = n + 1 := ⟨fuel - 1, by omega⟩
  match v with
  | .null => simp [stringify, readValue, ascii, skip, isBlank, Value.merge]
  | .bool true => simp [stringify, readValue, ascii, skip, isBlank, Value.merge]
  | .bool false => simp [stringify, readValue, ascii, skip, isBlank, Value.merge]
  | .num x =>
      obtain ⟨q, rfl, hq⟩ := h
      rw [stringify, Value.merge]
      · exact readValue_num hq ht
      · simp
      · simp
  | .str s =>
      rw [stringify, quote_append, readValue]
      simp only [skip_cons (by decide : isBlank 0x22 = false), readString_escape, if_pos, Option.map_some]
      rfl
  | .arr [] => simp [stringify, readValue, skip, isBlank, Value.merge, mergeItems]
  | .arr (x :: xs) =>
      obtain ⟨hx, hxs⟩ := h
      rw [stringify, List.length_cons, List.length_append] at hf
      obtain ⟨u, s, hus, hbegins⟩ := stringify_head x hx
      have hhead := readValue_stringify x hx fuel (by omega) (stops_items (F := F) xs t)
      have htail := readItems_stringify xs hxs fuel (by omega) t
      have hskip : (skip (stringify F x ++ (stringifyItems F xs ++ t))).head? ≠ some 0x5D := by
        rw [hus, List.cons_append, skip_cons hbegins.blank]
        exact fun heq => hbegins.close (Option.some.inj heq)
      rw [stringify, List.cons_append, List.append_assoc, readValue]
      simp only [skip_cons (by decide : isBlank 0x5B = false), if_neg (by decide : ¬(0x5B : UInt16) = 0x22), if_pos, if_neg hskip,
        hhead, htail, Option.bind_eq_bind, Option.bind_some]
      rfl
  | .obj [] => simp [stringify, readValue, skip, isBlank, Value.merge, mergeMembers]
  | .obj ((k, v) :: kvs) =>
      obtain ⟨hv, hkvs⟩ := h
      rw [stringify, List.length_cons, List.length_append, List.length_cons, List.length_append] at hf
      have hquote : 2 ≤ (quote k).length := by simp [quote]
      obtain ⟨fuel, rfl⟩ : ∃ n, fuel = n + 1 := ⟨fuel - 1, by omega⟩
      have hvalue := readValue_stringify v hv fuel (by omega) (stops_members (F := F) kvs t)
      have hmember := readMember_quote k hvalue
      have hrest := readMembers_stringify kvs hkvs (fuel + 1) (by omega) [(k, v.merge)] t
      have hskip : (skip (quote k ++ 0x3A :: (stringify F v ++ (stringifyMembers F kvs ++ t)))).head? ≠ some 0x7D := by
        rw [quote_append, skip_cons (by decide : isBlank 0x22 = false)]
        exact (by decide : ¬some (0x22 : UInt16) = some 0x7D)
      rw [stringify, List.cons_append, List.append_assoc, List.cons_append, List.append_assoc, readValue]
      simp only [skip_cons (by decide : isBlank 0x7B = false), if_neg (by decide : ¬(0x7B : UInt16) = 0x22),
        if_neg (by decide : ¬(0x7B : UInt16) = 0x5B), if_pos, if_neg hskip, hmember, hrest, Option.bind_eq_bind, Option.bind_some]
      rfl

theorem readItems_stringify (xs : List Value) (h : EachItem F.Holds xs) (fuel : Nat)
    (hf : 2 * (stringifyItems F xs).length ≤ fuel) (t : Units) :
    readItems F fuel (stringifyItems F xs ++ t) = some (mergeItems xs, t) := by
  match xs with
  | [] =>
      rw [stringifyItems, List.length_singleton] at hf
      obtain ⟨fuel, rfl⟩ : ∃ n, fuel = n + 1 := ⟨fuel - 1, by omega⟩
      simp [stringifyItems, readItems, skip, isBlank, mergeItems]
  | x :: xs =>
      obtain ⟨hx, hxs⟩ := h
      rw [stringifyItems, List.length_cons, List.length_append] at hf
      obtain ⟨fuel, rfl⟩ : ∃ n, fuel = n + 1 := ⟨fuel - 1, by omega⟩
      have hhead := readValue_stringify x hx fuel (by omega) (stops_items (F := F) xs t)
      have htail := readItems_stringify xs hxs fuel (by omega) t
      rw [stringifyItems, List.cons_append, List.append_assoc, readItems]
      simp only [skip_cons (by decide : isBlank 0x2C = false), if_neg (by decide : ¬(0x2C : UInt16) = 0x5D), if_pos, hhead, htail,
        Option.bind_eq_bind, Option.bind_some]
      rfl

theorem readMembers_stringify (kvs : List (Units × Value)) (h : EachMember F.Holds kvs) (fuel : Nat)
    (hf : 2 * (stringifyMembers F kvs).length ≤ fuel) (acc : List (Units × Value)) (t : Units) :
    readMembers F fuel acc (stringifyMembers F kvs ++ t) = some (mergeMembers acc kvs, t) := by
  match kvs with
  | [] =>
      rw [stringifyMembers, List.length_singleton] at hf
      obtain ⟨fuel, rfl⟩ : ∃ n, fuel = n + 1 := ⟨fuel - 1, by omega⟩
      simp [stringifyMembers, readMembers, skip, isBlank, mergeMembers]
  | (k, v) :: kvs =>
      obtain ⟨hv, hkvs⟩ := h
      rw [stringifyMembers, List.length_cons, List.length_append, List.length_cons, List.length_append] at hf
      have hquote : 2 ≤ (quote k).length := by simp [quote]
      obtain ⟨fuel, rfl⟩ : ∃ n, fuel = n + 2 := ⟨fuel - 2, by omega⟩
      have hvalue := readValue_stringify v hv fuel (by omega) (stops_members (F := F) kvs t)
      have hmember := readMember_quote k hvalue
      have hrest := readMembers_stringify kvs hkvs (fuel + 1) (by omega) (upsert acc k v.merge) t
      rw [stringifyMembers, List.cons_append, List.append_assoc, List.cons_append, List.append_assoc, readMembers]
      simp only [skip_cons (by decide : isBlank 0x2C = false), if_neg (by decide : ¬(0x2C : UInt16) = 0x7D), if_pos, hmember,
        Option.bind_eq_bind, Option.bind_some, hrest]
      rfl

end

theorem parse_merge {v : Value} (h : v.Each F.Holds) : parse F (stringify F v) = some v.merge := by
  have hread := readValue_stringify v h (4 * (stringify F v).length + 4) (by omega) (t := [])
    fun u hu => by cases hu
  rw [List.append_nil] at hread
  rw [parse, hread]
  rfl

mutual

/-- Where each key comes once there is nothing to merge. -/
theorem Value.All.merged {p : Number → Prop} (v : Value) (h : v.All p) : v.Each p ∧ v.merge = v := by
  match v with
  | .null | .bool _ | .str _ => exact ⟨trivial, rfl⟩
  | .num x => exact ⟨h, rfl⟩
  | .arr xs =>
      obtain ⟨heach, hmerge⟩ := AllItems.merged xs h
      exact ⟨heach, by rw [Value.merge, hmerge]⟩
  | .obj kvs =>
      obtain ⟨heach, hmerge⟩ := AllMembers.merged kvs h.2
      exact ⟨heach, by rw [Value.merge, hmerge [] h.1, List.nil_append]⟩

theorem AllItems.merged {p : Number → Prop} (xs : List Value) (h : AllItems p xs) : EachItem p xs ∧ mergeItems xs = xs := by
  match xs with
  | [] => exact ⟨trivial, rfl⟩
  | x :: xs =>
      obtain ⟨hx, hxm⟩ := Value.All.merged x h.1
      obtain ⟨hxs, hxsm⟩ := AllItems.merged xs h.2
      exact ⟨⟨hx, hxs⟩, by rw [mergeItems, hxm, hxsm]⟩

theorem AllMembers.merged {p : Number → Prop} (kvs : List (Units × Value)) (h : AllMembers p kvs) : EachMember p kvs ∧
    ∀ acc : List (Units × Value), ((acc ++ kvs).map Prod.fst).Nodup → mergeMembers acc kvs = acc ++ kvs := by
  match kvs with
  | [] => exact ⟨trivial, fun acc _ => by rw [mergeMembers, List.append_nil]⟩
  | (k, v) :: kvs =>
      obtain ⟨hv, hvm⟩ := Value.All.merged v h.1
      obtain ⟨hkvs, hkvsm⟩ := AllMembers.merged kvs h.2
      refine ⟨⟨hv, hkvs⟩, fun acc hnodup => ?_⟩
      have hfresh : k ∉ acc.map Prod.fst := by
        rw [List.map_append, List.map_cons] at hnodup
        exact fun hk => (List.nodup_append.mp hnodup).2.2 k hk k List.mem_cons_self rfl
      rw [mergeMembers, hvm, upsert_new hfresh, hkvsm _ (by simpa using hnodup), List.append_assoc]
      rfl

end

/-- `JSON.parse(JSON.stringify(v))` -/
theorem parse_stringify {v : Value} (h : v.All F.Holds) : parse F (stringify F v) = some v := by
  obtain ⟨heach, hmerge⟩ := Value.All.merged v h
  rw [parse_merge heach, hmerge]

end

end EncedoChat.JsonText
