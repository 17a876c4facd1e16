import EncedoChat.Lib.Bytes
import Mathlib.Data.Nat.Digits.Lemmas

/-!
# Strings as their UTF-16 units

Where the length of an encoding matters a string is its units, and a surrogate that stands alone is one of them.
`[...s]`, `TextEncoder` and `JSON.stringify` are over these.
-/

namespace EncedoChat

abbrev Units := List UInt16

namespace Units

def isHigh (u : UInt16) : Bool := 0xD800 ≤ u && u < 0xDC00

def isLow (u : UInt16) : Bool := 0xDC00 ≤ u && u < 0xE000

/-- A string of ASCII characters. -/
def ascii (s : String) : Units := s.toList.map fun c => UInt16.ofNat c.toNat

/-- `[...s]` -/
def points : Units → List Units
  | [] => []
  | [u] => [[u]]
  | u :: l :: us => if isHigh u && isLow l then [u, l] :: points us else [u] :: points (l :: us)

/-- A code point in UTF-8; a surrogate that stands alone is replaced. -/
def utf8Point : Units → Bytes
  | [u] =>
    let n := u.toNat
    if n < 0x80 then [UInt8.ofNat n]
    else if n < 0x800 then [UInt8.ofNat (0xC0 + n / 64), UInt8.ofNat (0x80 + n % 64)]
    else if isHigh u || isLow u then [0xEF, 0xBF, 0xBD]
    else [UInt8.ofNat (0xE0 + n / 4096), UInt8.ofNat (0x80 + n / 64 % 64), UInt8.ofNat (0x80 + n % 64)]
  | [h, l] =>
    let n := 0x10000 + (h.toNat - 0xD800) * 0x400 + (l.toNat - 0xDC00)
    [UInt8.ofNat (0xF0 + n / 262144), UInt8.ofNat (0x80 + n / 4096 % 64), UInt8.ofNat (0x80 + n / 64 % 64),
      UInt8.ofNat (0x80 + n % 64)]
  | _ => []

/-- `new TextEncoder().encode(s)` -/
def utf8 (s : Units) : Bytes := (points s).flatMap utf8Point

def hexDigit (n : Nat) : UInt16 := UInt16.ofNat (if n < 10 then 0x30 + n else 0x57 + n)

/-- `\uXXXX` -/
def escapeUnit (u : UInt16) : Units :=
  let n := u.toNat
  [0x5C, 0x75, hexDigit (n / 4096), hexDigit (n / 256 % 16), hexDigit (n / 16 % 16), hexDigit (n % 16)]

/-- A code point between the quotes of a JSON string. -/
def escape : Units → Units
  | [u] =>
    if u = 8 then [0x5C, 0x62] else if u = 9 then [0x5C, 0x74] else if u = 10 then [0x5C, 0x6E]
    else if u = 12 then [0x5C, 0x66] else if u = 13 then [0x5C, 0x72]
    else if u = 0x22 || u = 0x5C then [0x5C, u]
    else if u < 0x20 || isHigh u || isLow u then escapeUnit u
    else [u]
  | p => p

/-- `JSON.stringify(s)` -/
def quote (s : Units) : Units := 0x22 :: ((points s).flatMap escape ++ [0x22])

/-- A whole number, as JSON has it. -/
def num (n : Nat) : Units := if n = 0 then [0x30] else (Nat.digits 10 n).reverse.map fun d => UInt16.ofNat (0x30 + d)

/-- One member of a JSON object. -/
def member (f : Units × Units) : Units := quote f.1 ++ (0x3A :: f.2)

def members : List (Units × Units) → Units
  | [] => []
  | [f] => member f
  | f :: g :: fs => member f ++ (0x2C :: members (g :: fs))

/-- The JSON of an object, its values being JSON. -/
def object (fs : List (Units × Units)) : Units := 0x7B :: (members fs ++ [0x7D])

/-! ## What stands together -/

/-- What does not begin with the second half of a pair. -/
def Clean (s : Units) : Prop := ∀ u ∈ s.head?, isLow u = false

theorem points_append {a b : Units} (hb : b.Clean) : points (a ++ b) = points a ++ points b := by
  fun_induction points a with
  | case1 => rfl
  | case2 u =>
      cases b with
      | nil => rfl
      | cons v b =>
          have hv : isLow v = false := hb v rfl
          rw [List.singleton_append, points, hv, Bool.and_false, if_neg Bool.false_ne_true]
          rfl
  | case3 u l us hpair ih => rw [List.cons_append, List.cons_append, points, if_pos hpair, ih, List.cons_append]
  | case4 u l us hpair ih =>
      rw [List.cons_append, List.cons_append, points, if_neg hpair, ← List.cons_append, ih, List.cons_append]

theorem utf8_append {a b : Units} (hb : b.Clean) : utf8 (a ++ b) = utf8 a ++ utf8 b := by
  rw [utf8, points_append hb, List.flatMap_append]
  rfl

/-- A character of ASCII. -/
def Ascii (u : UInt16) : Prop := u < 0x80

theorem Ascii.not_low {u : UInt16} (h : Ascii u) : isLow u = false := by
  rw [isLow, Bool.and_eq_false_iff, decide_eq_false_iff_not, UInt16.not_le]
  exact .inl (UInt16.lt_trans h (by decide))

theorem Ascii.not_high {u : UInt16} (h : Ascii u) : isHigh u = false := by
  rw [isHigh, Bool.and_eq_false_iff, decide_eq_false_iff_not, UInt16.not_le]
  exact .inl (UInt16.lt_trans h (by decide))

theorem points_cons {u : UInt16} (h : isHigh u = false) (s : Units) : points (u :: s) = [u] :: points s := by
  cases s with
  | nil => rfl
  | cons l us => rw [points, h, Bool.false_and, if_neg Bool.false_ne_true]

theorem utf8Point_ascii {u : UInt16} (h : Ascii u) : (utf8Point [u]).length = 1 := by
  have hn : u.toNat < 0x80 := UInt16.lt_iff_toNat_lt.mp h
  rw [utf8Point, if_pos hn]
  rfl

/-- An ASCII character is a byte. -/
theorem length_utf8_cons {u : UInt16} (h : Ascii u) (s : Units) : (utf8 (u :: s)).length = 1 + (utf8 s).length := by
  rw [utf8, points_cons h.not_high, List.flatMap_cons, List.length_append, utf8Point_ascii h]
  rfl

theorem clean_cons {u : UInt16} (h : Ascii u) (s : Units) : Clean (u :: s) := by
  intro v hv
  obtain rfl := Option.some.inj hv
  exact h.not_low

theorem length_utf8_append {a b : Units} (hb : b.Clean) : (utf8 (a ++ b)).length = (utf8 a).length + (utf8 b).length := by
  rw [utf8_append hb, List.length_append]

theorem length_utf8_ascii {s : Units} (h : ∀ u ∈ s, Ascii u) : (utf8 s).length = s.length := by
  induction s with
  | nil => rfl
  | cons u s ih =>
      rw [length_utf8_cons (h u List.mem_cons_self), ih fun v hv => h v (List.mem_cons_of_mem u hv), List.length_cons,
        Nat.add_comm]

theorem clean_quote (s : Units) : Clean (quote s) := clean_cons (by decide : (_ : UInt16) < 0x80) _

theorem clean_object (fs : List (Units × Units)) : Clean (object fs) := clean_cons (by decide : (_ : UInt16) < 0x80) _

/-! ## JSON -/

/-- A character that JSON leaves as it is. -/
structure Plain (u : UInt16) : Prop where
  ascii : Ascii u
  printing : 0x20 ≤ u
  quote : u ≠ 0x22
  slash : u ≠ 0x5C

instance (u : UInt16) : Decidable (Plain u) :=
  decidable_of_iff (u < 0x80 ∧ 0x20 ≤ u ∧ u ≠ 0x22 ∧ u ≠ 0x5C)
    ⟨fun ⟨h₁, h₂, h₃, h₄⟩ => ⟨h₁, h₂, h₃, h₄⟩, fun ⟨h₁, h₂, h₃, h₄⟩ => ⟨h₁, h₂, h₃, h₄⟩⟩

theorem Plain.escape {u : UInt16} (h : Plain u) : escape [u] = [u] := by
  have hlt : ∀ v : UInt16, v < 0x20 → u ≠ v := by
    rintro v hv rfl
    exact absurd h.printing (UInt16.not_le.mpr hv)
  have hctl : ¬ u < 0x20 := UInt16.not_lt.mpr h.printing
  simp [Units.escape, hlt 8 (by decide), hlt 9 (by decide), hlt 10 (by decide), hlt 12 (by decide), hlt 13 (by decide),
    h.quote, h.slash, hctl, h.ascii.not_high, h.ascii.not_low]

theorem flatMap_escape {s : Units} (h : ∀ u ∈ s, Plain u) : (points s).flatMap escape = s := by
  induction s with
  | nil => rfl
  | cons u s ih =>
      have hu := h u List.mem_cons_self
      rw [points_cons hu.ascii.not_high, List.flatMap_cons, hu.escape, ih fun v hv => h v (List.mem_cons_of_mem u hv)]
      rfl

/-- A plain string takes its quotes and a byte for each character. -/
theorem length_quote_plain {s : Units} (h : ∀ u ∈ s, Plain u) : (utf8 (quote s)).length = s.length + 2 := by
  rw [quote, flatMap_escape h, length_utf8_cons (by decide : (_ : UInt16) < 0x80), length_utf8_append (clean_cons (by decide : (_ : UInt16) < 0x80) _),
    length_utf8_ascii fun u hu => (h u hu).ascii]
  exact Nat.add_comm 1 _

theorem length_member {f : Units × Units} (h : f.2.Clean) :
    (utf8 (member f)).length = (utf8 (quote f.1)).length + (1 + (utf8 f.2).length) := by
  rw [member, length_utf8_append (clean_cons (by decide : (_ : UInt16) < 0x80) _), length_utf8_cons (by decide : (_ : UInt16) < 0x80)]

/-- The members of an object, and the commas between them. -/
theorem length_members {fs : List (Units × Units)} (h : ∀ f ∈ fs, f.2.Clean) : (utf8 (members fs)).length =
    (fs.map fun f => (utf8 (quote f.1)).length + (1 + (utf8 f.2).length)).sum + (fs.length - 1) := by
  fun_induction members fs with
  | case1 => rfl
  | case2 f => rw [length_member (h f List.mem_cons_self), List.map_singleton, List.sum_singleton]; rfl
  | case3 f g fs ih =>
      rw [length_utf8_append (clean_cons (by decide : (_ : UInt16) < 0x80) _), length_utf8_cons (by decide : (_ : UInt16) < 0x80), length_member (h f List.mem_cons_self),
        ih fun f' hf' => h f' (List.mem_cons_of_mem f hf')]
      simp only [List.map_cons, List.sum_cons, List.length_cons]
      omega

theorem length_object {fs : List (Units × Units)} (h : ∀ f ∈ fs, f.2.Clean) : (utf8 (object fs)).length =
    2 + (fs.map fun f => (utf8 (quote f.1)).length + (1 + (utf8 f.2).length)).sum + (fs.length - 1) := by
  have hend : (utf8 [0x7D]).length = 1 := rfl
  rw [object, length_utf8_cons (by decide : (_ : UInt16) < 0x80), length_utf8_append (clean_cons (by decide : (_ : UInt16) < 0x80) _), length_members h, hend]
  omega

/-- Digits of a base are read back. -/
theorem foldl_digits {base : Nat} (hb : 1 < base) {value : UInt16 → Nat} {digit : Nat → UInt16}
    (h : ∀ k < base, value (digit k) = k) (n : Nat) :
    ((Nat.digits base n).reverse.map digit).foldl (fun n u => n * base + value u) 0 = n := by
  have hdigits : ∀ k ∈ (Nat.digits base n).reverse, value (digit k) = k :=
    fun k hk => h k (Nat.digits_lt_base hb (List.mem_reverse.mp hk))
  have hfold : ∀ (l : List Nat) a, (∀ k ∈ l, value (digit k) = k) →
      (l.map digit).foldl (fun n u => n * base + value u) a = l.foldl (fun n k => n * base + k) a := by
    intro l
    induction l with
    | nil => intro a _; rfl
    | cons k l ih =>
        intro a hl
        rw [List.map_cons, List.foldl_cons, List.foldl_cons, hl k List.mem_cons_self,
          ih _ fun m hm => hl m (List.mem_cons_of_mem k hm)]
  rw [hfold _ _ hdigits, List.foldl_reverse]
  conv => rhs; rw [← Nat.ofDigits_digits base n]
  rw [Nat.ofDigits_eq_foldr]
  congr 1
  funext k a
  rw [Nat.cast_id, Nat.mul_comm, Nat.add_comm]

/-- A number is written in digits. -/
theorem mem_num {n : Nat} {u : UInt16} (h : u ∈ num n) : ∃ d < 10, u = UInt16.ofNat (0x30 + d) := by
  rw [num] at h
  split at h
  · exact ⟨0, by decide, List.mem_singleton.mp h⟩
  · obtain ⟨d, hd, rfl⟩ := List.mem_map.mp h
    exact ⟨d, Nat.digits_lt_base (by decide) (List.mem_reverse.mp hd), rfl⟩

theorem num_ne_nil (n : Nat) : num n ≠ [] := by
  rw [num]
  split
  · simp
  · rename_i h
    rwa [ne_eq, List.map_eq_nil_iff, List.reverse_eq_nil_iff, Nat.digits_eq_nil_iff_eq_zero]

theorem ascii_num {n : Nat} {u : UInt16} (h : u ∈ num n) : Ascii u := by
  obtain ⟨d, hd, rfl⟩ := mem_num h
  have hdigit : ∀ d < 10, UInt16.ofNat (0x30 + d) < 0x80 := by decide
  exact hdigit d hd

theorem clean_num (n : Nat) : Clean (num n) := fun _ hu => (ascii_num (List.mem_of_mem_head? hu)).not_low

theorem length_num_le {n k : Nat} (hk : 0 < k) (h : n < 10 ^ k) : (num n).length ≤ k := by
  rw [num]
  split
  · exact hk
  · rw [List.length_map, List.length_reverse]
    exact (Nat.digits_length_le_iff (by decide) n).mpr h

theorem length_num (n : Nat) : (utf8 (num n)).length = (num n).length := length_utf8_ascii fun _ => ascii_num

end Units

end EncedoChat
