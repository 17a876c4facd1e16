import EncedoChat.Lib.JsonText
import Mathlib.Data.List.TakeWhile

/-!
# JSON as bytes

A text that is written has no surrogate alone, so it is read from its bytes. What is read has each key once, and numbers
that are doubles.
-/

namespace EncedoChat.JsonText

open Units

section
variable {F : Doubles}

/-! ## What is written is well-formed -/

theorem wellFormed_escape {p s : Units} (h : p ∈ points s) : WellFormed (escape p) := by
  have hascii : ∀ l : Units, (∀ u ∈ l, Ascii u) → WellFormed l := fun l => wellFormed_ascii
  rcases points_cases h with ⟨u, rfl⟩ | ⟨u, l, hu, hl, rfl⟩
  · have hpair : ∀ v : UInt16, Ascii v → WellFormed [0x5C, v] := by
      intro v hv
      refine hascii _ fun w hw => ?_
      rcases List.mem_pair.mp hw with rfl | rfl
      · exact (by decide : (0x5C : UInt16) < 0x80)
      · exact hv
    rw [escape]
    split
    · exact hpair _ (by decide : (0x62 : UInt16) < 0x80)
    split
    · exact hpair _ (by decide : (0x74 : UInt16) < 0x80)
    split
    · exact hpair _ (by decide : (0x6E : UInt16) < 0x80)
    split
    · exact hpair _ (by decide : (0x66 : UInt16) < 0x80)
    split
    · exact hpair _ (by decide : (0x72 : UInt16) < 0x80)
    split
    · rename_i h
      rw [Bool.or_eq_true, decide_eq_true_eq, decide_eq_true_eq] at h
      rcases h with rfl | rfl
      · exact hpair _ (by decide : (0x22 : UInt16) < 0x80)
      · exact hpair _ (by decide : (0x5C : UInt16) < 0x80)
    split
    · have hdigit : ∀ n < 16, Ascii (hexDigit n) := by
        have : ∀ n < 16, hexDigit n < 0x80 := by decide
        exact this
      have hu := u.toNat_lt
      refine hascii _ fun v hv => ?_
      simp only [escapeUnit, List.mem_cons, List.not_mem_nil, or_false] at hv
      rcases hv with rfl | rfl | rfl | rfl | rfl | rfl
      · exact (by decide : (0x5C : UInt16) < 0x80)
      · exact (by decide : (0x75 : UInt16) < 0x80)
      · exact hdigit _ (by omega)
      · exact hdigit _ (by omega)
      · exact hdigit _ (by omega)
      · exact hdigit _ (by omega)
    · rename_i hplain
      simp only [Bool.or_eq_true, not_or, Bool.not_eq_true] at hplain
      exact wellFormed_one (by rw [hplain.1.2, hplain.2]; rfl)
  · rw [escape.eq_2 _ (by simp)]
    exact wellFormed_pair hu hl

theorem wellFormed_cons {u : UInt16} (hu : Ascii u) {s : Units} (h : WellFormed s) : WellFormed (u :: s) := by
  have hone : WellFormed [u] := wellFormed_one (by rw [hu.not_high, hu.not_low]; rfl)
  exact hone.append h

theorem wellFormed_quote (s : Units) : WellFormed (quote s) :=
  wellFormed_cons (by decide : (0x22 : UInt16) < 0x80)
    ((wellFormed_flatMap fun _ hp => wellFormed_escape hp).append
      (wellFormed_cons (by decide : (0x22 : UInt16) < 0x80) wellFormed_nil))

mutual

theorem wellFormed_stringify (v : Value) (h : v.All F.Holds) : WellFormed (stringify F v) := by
  match v with
  | .null => exact wellFormed_ascii (by simp [stringify, ascii, Ascii])
  | .bool true => exact wellFormed_ascii (by simp [stringify, ascii, Ascii])
  | .bool false => exact wellFormed_ascii (by simp [stringify, ascii, Ascii])
  | .num x =>
      obtain ⟨q, rfl, hq⟩ := h
      rw [stringify]
      exact wellFormed_ascii fun u hu => ascii_numeralUnit ((F.write_units hq).2 u hu)
  | .str s =>
      rw [stringify]
      exact wellFormed_quote s
  | .arr [] =>
      rw [stringify]
      exact wellFormed_cons (by decide : (0x5B : UInt16) < 0x80)
        (wellFormed_cons (by decide : (0x5D : UInt16) < 0x80) wellFormed_nil)
  | .arr (x :: xs) =>
      rw [stringify]
      exact wellFormed_cons (by decide : (0x5B : UInt16) < 0x80)
        ((wellFormed_stringify x h.1).append (wellFormed_items xs h.2))
  | .obj [] =>
      rw [stringify]
      exact wellFormed_cons (by decide : (0x7B : UInt16) < 0x80)
        (wellFormed_cons (by decide : (0x7D : UInt16) < 0x80) wellFormed_nil)
  | .obj ((k, v) :: kvs) =>
      rw [stringify]
      exact wellFormed_cons (by decide : (0x7B : UInt16) < 0x80) ((wellFormed_quote k).append
        (wellFormed_cons (by decide : (0x3A : UInt16) < 0x80)
          ((wellFormed_stringify v h.2.1).append (wellFormed_members kvs h.2.2))))

theorem wellFormed_items (xs : List Value) (h : AllItems F.Holds xs) : WellFormed (stringifyItems F xs) := by
  match xs with
  | [] => exact wellFormed_cons (by decide : (0x5D : UInt16) < 0x80) wellFormed_nil
  | x :: xs =>
      rw [stringifyItems]
      exact wellFormed_cons (by decide : (0x2C : UInt16) < 0x80)
        ((wellFormed_stringify x h.1).append (wellFormed_items xs h.2))

theorem wellFormed_members (kvs : List (Units × Value)) (h : AllMembers F.Holds kvs) :
    WellFormed (stringifyMembers F kvs) := by
  match kvs with
  | [] => exact wellFormed_cons (by decide : (0x7D : UInt16) < 0x80) wellFormed_nil
  | (k, v) :: kvs =>
      rw [stringifyMembers]
      exact wellFormed_cons (by decide : (0x2C : UInt16) < 0x80) ((wellFormed_quote k).append
        (wellFormed_cons (by decide : (0x3A : UInt16) < 0x80)
          ((wellFormed_stringify v h.1).append (wellFormed_members kvs h.2))))

end

/-- An object, as one is written member by member. -/
theorem stringify_obj (kvs : List (Units × Value)) :
    stringify F (.obj kvs) = object (kvs.map fun e => (e.1, stringify F e.2)) := by
  have hmore : ∀ f g fs, members (f :: g :: fs) = member f ++ (0x2C :: members (g :: fs)) := fun _ _ _ => rfl
  have hrest : ∀ (kvs : List (Units × Value)) k v, quote k ++ 0x3A :: (stringify F v ++ stringifyMembers F kvs) =
      members (((k, v) :: kvs).map fun e => (e.1, stringify F e.2)) ++ [0x7D] := by
    intro kvs
    induction kvs with
    | nil =>
        intro k v
        simp [stringifyMembers, members, member]
    | cons e kvs ih =>
        intro k v
        obtain ⟨k', v'⟩ := e
        rw [stringifyMembers, ih k' v']
        simp only [List.map_cons, hmore, member, List.append_assoc, List.cons_append]
  cases kvs with
  | nil => rfl
  | cons e kvs =>
      obtain ⟨k, v⟩ := e
      rw [stringify, hrest kvs k v, object]

/-! ## Bytes -/

section
variable (F)

/-- `new TextEncoder().encode(JSON.stringify(v))` -/
def encode (v : Value) : Bytes := utf8 (stringify F v)

/-- `JSON.parse(new TextDecoder().decode(b))` -/
def decode (b : Bytes) : Option Value := parse F (ofUtf8 b)

end

theorem decode_encode {v : Value} (h : v.All F.Holds) : decode F (encode F v) = some v := by
  have hmark : (stringify F v).head? ≠ some 0xFEFF := by
    obtain ⟨u, s, hus, hbegins⟩ := stringify_head v (Value.All.merged v h).1
    intro hm
    rw [hus] at hm
    obtain rfl := Option.some.inj hm
    exact absurd hbegins.ascii (by decide : ¬(0xFEFF : UInt16) < 0x80)
  rw [decode, encode, ofUtf8_utf8 (wellFormed_stringify v h) hmark, parse_stringify h]

/-! ## What is read -/

mutual

theorem Value.All.imp {p q : Number → Prop} (hpq : ∀ x, p x → q x) (v : Value) (h : v.All p) : v.All q := by
  match v with
  | .null | .bool _ | .str _ => trivial
  | .num x => exact hpq x h
  | .arr xs => exact AllItems.imp hpq xs h
  | .obj kvs => exact ⟨h.1, AllMembers.imp hpq kvs h.2⟩

theorem AllItems.imp {p q : Number → Prop} (hpq : ∀ x, p x → q x) (xs : List Value) (h : AllItems p xs) : AllItems q xs := by
  match xs with
  | [] => trivial
  | x :: xs => exact ⟨Value.All.imp hpq x h.1, AllItems.imp hpq xs h.2⟩

theorem AllMembers.imp {p q : Number → Prop} (hpq : ∀ x, p x → q x) (kvs : List (Units × Value)) (h : AllMembers p kvs) :
    AllMembers q kvs := by
  match kvs with
  | [] => trivial
  | (_, v) :: kvs => exact ⟨Value.All.imp hpq v h.1, AllMembers.imp hpq kvs h.2⟩

end

mutual

theorem Value.All.and {p q : Number → Prop} (v : Value) (hp : v.All p) (hq : v.All q) : v.All fun x => p x ∧ q x := by
  match v with
  | .null | .bool _ | .str _ => trivial
  | .num x => exact ⟨hp, hq⟩
  | .arr xs => exact AllItems.and xs hp hq
  | .obj kvs => exact ⟨hp.1, AllMembers.and kvs hp.2 hq.2⟩

theorem AllItems.and {p q : Number → Prop} (xs : List Value) (hp : AllItems p xs) (hq : AllItems q xs) :
    AllItems (fun x => p x ∧ q x) xs := by
  match xs with
  | [] => trivial
  | x :: xs => exact ⟨Value.All.and x hp.1 hq.1, AllItems.and xs hp.2 hq.2⟩

theorem AllMembers.and {p q : Number → Prop} (kvs : List (Units × Value)) (hp : AllMembers p kvs) (hq : AllMembers q kvs) :
    AllMembers (fun x => p x ∧ q x) kvs := by
  match kvs with
  | [] => trivial
  | (_, v) :: kvs => exact ⟨Value.All.and v hp.1 hq.1, AllMembers.and kvs hp.2 hq.2⟩

end

theorem allMembers_iff {p : Number → Prop} {kvs : List (Units × Value)} : AllMembers p kvs ↔ ∀ e ∈ kvs, e.2.All p := by
  induction kvs with
  | nil => simp [AllMembers]
  | cons e kvs ih => rw [AllMembers, List.forall_mem_cons, ih]

theorem allItems_iff {p : Number → Prop} {xs : List Value} : AllItems p xs ↔ ∀ x ∈ xs, x.All p := by
  induction xs with
  | nil => simp [AllItems]
  | cons x xs ih => rw [AllItems, List.forall_mem_cons, ih]

/-- A number that is read is a double, or beyond them. -/
def Doubles.Reads (F : Doubles) (x : Number) : Prop := ∀ q, x = .finite q → F.round q = .finite q

/-- The members that are read: each key once. -/
structure Members (F : Doubles) (kvs : List (Units × Value)) : Prop where
  nodup : (kvs.map Prod.fst).Nodup
  all : AllMembers F.Reads kvs

theorem Members.upsert {kvs : List (Units × Value)} (h : Members F kvs) (k : Units) {v : Value} (hv : v.All F.Reads) :
    Members F (upsert kvs k v) := by
  by_cases hk : k ∈ kvs.map Prod.fst
  · refine ⟨?_, allMembers_iff.mpr fun e he => ?_⟩
    · rw [keys_upsert_old hk v]
      exact h.nodup
    · rw [JsonText.upsert, if_pos hk] at he
      obtain ⟨e', he', rfl⟩ := List.mem_map.mp he
      split
      · exact hv
      · exact allMembers_iff.mp h.all e' he'
  · rw [upsert_new hk]
    refine ⟨?_, allMembers_iff.mpr fun e he => ?_⟩
    · rw [List.map_append, List.map_singleton, List.nodup_append]
      refine ⟨h.nodup, List.nodup_singleton k, fun a ha b hb hab => ?_⟩
      rw [hab, List.mem_singleton.mp hb] at ha
      exact hk ha
    · rcases List.mem_append.mp he with he | he
      · exact allMembers_iff.mp h.all e he
      · rw [List.mem_singleton.mp he]
        exact hv

/-- What the readers read with some fuel. -/
structure Sound (F : Doubles) (fuel : Nat) : Prop where
  value : ∀ {s v r}, readValue F fuel s = some (v, r) → v.All F.Reads
  items : ∀ {s xs r}, readItems F fuel s = some (xs, r) → AllItems F.Reads xs
  member : ∀ {s k v r}, readMember F fuel s = some (k, v, r) → v.All F.Reads
  members : ∀ {acc s kvs r}, Members F acc → readMembers F fuel acc s = some (kvs, r) → Members F kvs

theorem sound (fuel : Nat) : Sound F fuel := by
  induction fuel with
  | zero =>
      constructor
      · intro s v r h
        rw [readValue] at h
        cases h
      · intro s xs r h
        rw [readItems] at h
        cases h
      · intro s k v r h
        rw [readMember] at h
        cases h
      · intro acc s kvs r _ h
        rw [readMembers] at h
        cases h
  | succ fuel ih =>
      constructor
      · intro s v r h
        rw [readValue] at h
        dsimp only at h
        split at h
        · cases h
        split at h
        · obtain ⟨⟨t, r'⟩, -, h⟩ := Option.map_eq_some_iff.mp h
          obtain ⟨rfl, -⟩ := Prod.mk.inj h
          trivial
        split at h
        · split at h
          · obtain ⟨rfl, -⟩ := Prod.mk.inj (Option.some.inj h)
            trivial
          · obtain ⟨⟨x, r₁⟩, hx, h⟩ := Option.bind_eq_some_iff.mp h
            obtain ⟨⟨xs, r₂⟩, hxs, h⟩ := Option.bind_eq_some_iff.mp h
            obtain ⟨rfl, -⟩ := Prod.mk.inj (Option.some.inj h)
            exact ⟨ih.value hx, ih.items hxs⟩
        split at h
        · split at h
          · obtain ⟨rfl, -⟩ := Prod.mk.inj (Option.some.inj h)
            exact ⟨List.nodup_nil, trivial⟩
          · obtain ⟨⟨k, v, r₁⟩, hv, h⟩ := Option.bind_eq_some_iff.mp h
            obtain ⟨⟨kvs, r₂⟩, hkvs, h⟩ := Option.bind_eq_some_iff.mp h
            obtain ⟨rfl, -⟩ := Prod.mk.inj (Option.some.inj h)
            have hone : Members F [(k, v)] := ⟨List.nodup_singleton k, ih.member hv, trivial⟩
            have hall := ih.members hone hkvs
            exact ⟨hall.nodup, hall.all⟩
        split at h
        · obtain ⟨rfl, -⟩ := Prod.mk.inj (Option.some.inj h)
          trivial
        split at h
        · obtain ⟨rfl, -⟩ := Prod.mk.inj (Option.some.inj h)
          trivial
        split at h
        · obtain ⟨rfl, -⟩ := Prod.mk.inj (Option.some.inj h)
          trivial
        · obtain ⟨q, -, h⟩ := Option.map_eq_some_iff.mp h
          obtain ⟨rfl, -⟩ := Prod.mk.inj h
          exact fun r hr => F.round_round hr
      · intro s xs r h
        rw [readItems] at h
        split at h
        · cases h
        split at h
        · obtain ⟨rfl, -⟩ := Prod.mk.inj (Option.some.inj h)
          trivial
        split at h
        · obtain ⟨⟨x, r₁⟩, hx, h⟩ := Option.bind_eq_some_iff.mp h
          obtain ⟨⟨xs, r₂⟩, hxs, h⟩ := Option.bind_eq_some_iff.mp h
          obtain ⟨rfl, -⟩ := Prod.mk.inj (Option.some.inj h)
          exact ⟨ih.value hx, ih.items hxs⟩
        · cases h
      · intro s k v r h
        rw [readMember] at h
        split at h
        · cases h
        split at h
        · obtain ⟨⟨k, r₁⟩, -, h⟩ := Option.bind_eq_some_iff.mp h
          dsimp only at h
          split at h
          · obtain ⟨⟨v, r₂⟩, hv, h⟩ := Option.bind_eq_some_iff.mp h
            obtain ⟨-, h⟩ := Prod.mk.inj (Option.some.inj h)
            obtain ⟨rfl, -⟩ := Prod.mk.inj h
            exact ih.value hv
          · cases h
        · cases h
      · intro acc s kvs r hacc h
        rw [readMembers] at h
        split at h
        · cases h
        split at h
        · obtain ⟨rfl, -⟩ := Prod.mk.inj (Option.some.inj h)
          exact hacc
        split at h
        · obtain ⟨⟨k, v, r₁⟩, hv, h⟩ := Option.bind_eq_some_iff.mp h
          exact ih.members (hacc.upsert k (ih.member hv)) h
        · cases h

theorem parse_reads {s : Units} {v : Value} (h : parse F s = some v) : v.All F.Reads := by
  rw [parse] at h
  split at h
  · rename_i v' r hread
    split at h
    · obtain rfl := Option.some.inj h
      exact (sound _).value hread
    · cases h
  · cases h

theorem holds_nat {n : Nat} (h : n < 2 ^ 53) : F.Holds (.finite n) := ⟨n, rfl, F.round_nat h⟩

/-- `Number.isFinite` of each number of a value. -/
def Value.Finite (v : Value) : Prop := v.All fun x => ∃ q, x = .finite q

theorem holds_of_finite {v : Value} (h : v.All F.Reads) (hfin : v.Finite) : v.All F.Holds := by
  refine Value.All.imp ?_ v (Value.All.and v h hfin)
  rintro x ⟨hreads, q, rfl⟩
  exact ⟨q, rfl, hreads q rfl⟩

end

/-! ## Whole numbers -/

theorem isDigit_num {n : Nat} {u : UInt16} (h : u ∈ num n) : isDigit u = true := by
  obtain ⟨d, hd, rfl⟩ := mem_num h
  have hdigit : ∀ d < 10, isDigit (UInt16.ofNat (0x30 + d)) = true := by decide
  exact hdigit d hd

theorem digitsValue_num (n : Nat) : digitsValue (num n) = n := by
  rw [num]
  split
  · rename_i h
    rw [h]
    rfl
  · exact foldl_digits (by decide) (by decide) n

theorem num_head (n : Nat) : ¬((num n).head? = some 0x30 ∧ 1 < (num n).length) := by
  rw [num]
  split
  · simp
  · rename_i h
    rintro ⟨hhead, -⟩
    have hne : Nat.digits 10 n ≠ [] := Nat.digits_ne_nil_iff_ne_zero.mpr h
    rw [List.head?_map, List.head?_reverse, List.getLast?_eq_some_getLast hne, Option.map_some, Option.some.injEq] at hhead
    have hpos := Nat.getLast_digit_ne_zero 10 h
    have hlt := Nat.digits_lt_base (by decide) (List.getLast_mem hne)
    have hzero : ∀ d < 10, UInt16.ofNat (0x30 + d) = 0x30 → d = 0 := by decide
    exact hpos (hzero _ hlt hhead)

theorem numeral_num (n : Nat) : numeral (num n) = some (n : Rat) := by
  have hall : (num n).takeWhile isDigit = num n := List.takeWhile_eq_self_iff.mpr fun u hu => isDigit_num hu
  have hnone : (num n).dropWhile isDigit = [] := List.dropWhile_eq_nil_iff.mpr fun u hu => isDigit_num hu
  have hsign : ¬(num n).head? = some 0x2D := by
    intro hhead
    exact absurd (isDigit_num (List.mem_of_mem_head? hhead)) (by decide)
  have hok : ¬(num n = [] ∨ (num n).head? = some 0x30 ∧ 1 < (num n).length) := not_or.mpr ⟨num_ne_nil n, num_head n⟩
  simp only [numeral, hsign, if_false, hall, if_neg hok, hnone]
  simp [fraction, exponent, digitsValue_num]

/-- A whole number below `2 ^ 53` is itself. -/
def roundWhole (q : Rat) : Number := if q.den = 1 ∧ 0 ≤ q.num ∧ q.num < 2 ^ 53 then .finite q else .infinity (q < 0)

theorem roundWhole_finite {q r : Rat} (h : roundWhole q = .finite r) :
    q = r ∧ q = (q.num.toNat : Rat) ∧ q.num.toNat < 2 ^ 53 := by
  rw [roundWhole] at h
  split at h
  · rename_i hq
    obtain ⟨hden, hpos, hlt⟩ := hq
    refine ⟨Number.finite.inj h, ?_, by omega⟩
    conv_lhs => rw [← Rat.num_div_den q, hden]
    rw [Nat.cast_one, div_one, ← Int.cast_natCast, Int.toNat_of_nonneg hpos]
  · cases h

theorem roundWhole_nat {n : Nat} (h : n < 2 ^ 53) : roundWhole n = .finite n := by
  rw [roundWhole, if_pos]
  refine ⟨Rat.den_natCast n, ?_, ?_⟩
  · rw [Rat.num_natCast]
    exact Int.natCast_nonneg n
  · rw [Rat.num_natCast]
    omega

theorem roundWhole_round {q r : Rat} (h : roundWhole q = .finite r) : roundWhole r = .finite r := by
  obtain ⟨rfl, -⟩ := roundWhole_finite h
  exact h

theorem writeWhole_nat {n : Nat} : num (n : Rat).num.toNat = num n := by
  rw [Rat.num_natCast, Int.toNat_natCast]

theorem writeWhole_units {q : Rat} : num q.num.toNat ≠ [] ∧ ∀ u ∈ num q.num.toNat, isNumeralUnit u = true := by
  refine ⟨num_ne_nil _, fun u hu => ?_⟩
  rw [isNumeralUnit, isDigit_num hu]
  rfl

theorem roundWhole_read {q : Rat} (h : roundWhole q = .finite q) :
    ∃ x, numeral (num q.num.toNat) = some x ∧ roundWhole x = .finite q := by
  obtain ⟨-, hq, hlt⟩ := roundWhole_finite h
  refine ⟨_, numeral_num _, ?_⟩
  rw [← hq]
  exact h

/-- The whole numbers below `2 ^ 53`, as if there were no other doubles. -/
def Doubles.whole : Doubles where
  round := roundWhole
  write q := num q.num.toNat
  round_round := roundWhole_round
  round_nat := roundWhole_nat
  write_nat := fun _ => writeWhole_nat
  write_units := fun _ => writeWhole_units
  read_write := roundWhole_read

end EncedoChat.JsonText
