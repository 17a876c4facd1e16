import EncedoChat.Lib.Utf16
import Mathlib.Data.List.DropRight

/-!
# Base64

`btoa` and `atob`. What is read may have blanks in it, and the padding may be left out.
-/

namespace EncedoChat.Base64

open Units

/-- Six bits at a time; what is missing at the end is zero. -/
def sextets : Bytes → List Nat
  | [] => []
  | [x] => [x.toNat / 4, x.toNat % 4 * 16]
  | [x, y] => [x.toNat / 4, x.toNat % 4 * 16 + y.toNat / 16, y.toNat % 16 * 4]
  | x :: y :: z :: bs =>
    x.toNat / 4 :: (x.toNat % 4 * 16 + y.toNat / 16) :: (y.toNat % 16 * 4 + z.toNat / 64) :: z.toNat % 64 :: sextets bs

/-- Eight bits at a time; what is over at the end is dropped. -/
def bytes : List Nat → Bytes
  | a :: b :: c :: d :: s =>
    UInt8.ofNat (a * 4 + b / 16) :: UInt8.ofNat (b % 16 * 16 + c / 4) :: UInt8.ofNat (c % 4 * 64 + d) :: bytes s
  | [a, b, c] => [UInt8.ofNat (a * 4 + b / 16), UInt8.ofNat (b % 16 * 16 + c / 4)]
  | [a, b] => [UInt8.ofNat (a * 4 + b / 16)]
  | _ => []

/-- `A–Z a–z 0–9 + /` -/
def digit (n : Nat) : UInt16 :=
  UInt16.ofNat (if n < 26 then n + 65 else if n < 52 then n + 71 else if n < 62 then n - 4 else if n = 62 then 43 else 47)

def value (u : UInt16) : Option Nat :=
  let n := u.toNat
  if 65 ≤ n ∧ n ≤ 90 then some (n - 65)
  else if 97 ≤ n ∧ n ≤ 122 then some (n - 71)
  else if 48 ≤ n ∧ n ≤ 57 then some (n + 4)
  else if n = 43 then some 62
  else if n = 47 then some 63
  else none

/-- `=` -/
def PAD : UInt16 := 0x3D

/-- Characters that complete the last four. -/
def padding (n : Nat) : Units := List.replicate ((4 - n % 4) % 4) PAD

/-- `btoa` of the bytes -/
def btoa (bs : Bytes) : Units :=
  let ds := (sextets bs).map digit
  ds ++ padding ds.length

def isBlank (u : UInt16) : Bool := u = 9 || u = 10 || u = 12 || u = 13 || u = 32

/-- One or two `=` at the end go. -/
def unpad (s : Units) : Units :=
  if [PAD, PAD] <:+ s then s.dropLast.dropLast else if [PAD] <:+ s then s.dropLast else s

/-- What is left of a text when its blanks and its padding are. -/
def core (s : Units) : Units :=
  let t := s.filter fun u => !isBlank u
  if t.length % 4 = 0 then unpad t else t

/-- `atob`; `none` throws. -/
def atob (s : Units) : Option Bytes :=
  if (core s).length % 4 = 1 then none else ((core s).mapM value).map bytes

/-! ## Digits -/

theorem value_digit : ∀ n < 64, value (digit n) = some n := by decide

theorem digit_plain : ∀ n < 64, isBlank (digit n) = false ∧ digit n ≠ PAD := by decide

theorem digit_ascii : ∀ n < 64, Plain (digit n) := by decide

theorem sextets_lt {bs : Bytes} {n : Nat} (h : n ∈ sextets bs) : n < 64 := by
  fun_induction sextets bs with
  | case1 => cases h
  | case2 x =>
      have := x.toNat_lt
      simp only [List.mem_cons, List.not_mem_nil, or_false] at h
      omega
  | case3 x y =>
      have := x.toNat_lt
      have := y.toNat_lt
      simp only [List.mem_cons, List.not_mem_nil, or_false] at h
      omega
  | case4 x y z bs ih =>
      have := x.toNat_lt
      have := y.toNat_lt
      have := z.toNat_lt
      simp only [List.mem_cons] at h
      rcases h with h | h | h | h | h
      · omega
      · omega
      · omega
      · omega
      · exact ih h

theorem ofNat_eq {x : UInt8} {n : Nat} (h : n = x.toNat) : UInt8.ofNat n = x := by
  rw [h, UInt8.ofNat_toNat]

/-- The bytes are read back. -/
theorem bytes_sextets (bs : Bytes) : bytes (sextets bs) = bs := by
  fun_induction sextets bs with
  | case1 => rfl
  | case2 x =>
      have := x.toNat_lt
      rw [bytes, ofNat_eq (x := x) (by omega)]
  | case3 x y =>
      have := x.toNat_lt
      have := y.toNat_lt
      rw [bytes, ofNat_eq (x := x) (by omega), ofNat_eq (x := y) (by omega)]
  | case4 x y z bs ih =>
      have := x.toNat_lt
      have := y.toNat_lt
      have := z.toNat_lt
      rw [bytes, ih, ofNat_eq (x := x) (by omega), ofNat_eq (x := y) (by omega), ofNat_eq (x := z) (by omega)]

theorem length_sextets (bs : Bytes) : (sextets bs).length = (bs.length * 4 + 2) / 3 := by
  fun_induction sextets bs with
  | case1 => rfl
  | case2 x => simp
  | case3 x y => simp
  | case4 x y z bs ih =>
      simp only [List.length_cons, ih]
      omega

theorem mapM_value {ns : List Nat} (h : ∀ n ∈ ns, n < 64) : (ns.map digit).mapM value = some ns := by
  induction ns with
  | nil => rfl
  | cons n ns ih =>
      rw [List.map_cons, List.mapM_cons, value_digit n (h n List.mem_cons_self), ih fun m hm => h m (List.mem_cons_of_mem n hm)]
      rfl

/-! ## Padding -/

theorem unpad_padded {ds : Units} (h : PAD ∉ ds) {k : Nat} (hk : k ≤ 2) : unpad (ds ++ List.replicate k PAD) = ds := by
  have hlast : ¬[PAD] <:+ ds := fun hs => h (hs.subset List.mem_cons_self)
  have htwo : ∀ t, ¬[PAD, PAD] <:+ ds ++ [t] ∨ t = PAD ∧ PAD ∈ ds := by
    intro t
    by_cases hs : [PAD, PAD] <:+ ds ++ [t]
    · obtain ⟨r, hr⟩ := hs
      have hr' : (r ++ [PAD]) ++ [PAD] = ds ++ [t] := by simpa using hr
      obtain ⟨hd, ht⟩ := List.append_inj' hr' rfl
      right
      rw [← hd]
      simpa using ht.symm
    · exact .inl hs
  interval_cases k
  · rw [List.replicate_zero, List.append_nil, unpad, if_neg, if_neg hlast]
    exact fun hs => h (hs.subset List.mem_cons_self)
  · rw [List.replicate_one, unpad, if_neg, if_pos (List.suffix_append ds [PAD]), List.dropLast_concat]
    rcases htwo PAD with hno | ⟨-, hmem⟩
    · exact hno
    · exact absurd hmem h
  · have hsplit : ds ++ List.replicate 2 PAD = ds ++ [PAD] ++ [PAD] := by simp
    have hend : [PAD, PAD] <:+ ds ++ [PAD] ++ [PAD] := ⟨ds, by simp⟩
    rw [hsplit, unpad, if_pos hend, List.dropLast_concat, List.dropLast_concat]

/-- Digits and what completes them: the digits. -/
theorem core_padded {ds : Units} (hblank : ∀ u ∈ ds, isBlank u = false) (hpad : PAD ∉ ds) (hlen : ds.length % 4 ≠ 1) :
    core (ds ++ padding ds.length) = ds := by
  have hfilter : (ds ++ padding ds.length).filter (fun u => !isBlank u) = ds ++ padding ds.length := by
    rw [List.filter_eq_self]
    intro u hu
    rcases List.mem_append.mp hu with hu | hu
    · rw [hblank u hu, Bool.not_false]
    · rw [List.eq_of_mem_replicate hu]
      rfl
  have hfour : (ds ++ padding ds.length).length % 4 = 0 := by
    simp only [padding, List.length_append, List.length_replicate]
    omega
  rw [core, hfilter, if_pos hfour, padding, unpad_padded hpad (by omega)]

theorem digits_plain {bs : Bytes} {u : UInt16} (h : u ∈ (sextets bs).map digit) : Plain u ∧ isBlank u = false ∧ u ≠ PAD := by
  obtain ⟨n, hn, rfl⟩ := List.mem_map.mp h
  exact ⟨digit_ascii n (sextets_lt hn), digit_plain n (sextets_lt hn)⟩

/-- Bytes in base64 are read back. -/
theorem atob_btoa (bs : Bytes) : atob (btoa bs) = some bs := by
  have hlen := length_sextets bs
  have hcore : core (btoa bs) = (sextets bs).map digit := by
    apply core_padded
    · exact fun u hu => (digits_plain hu).2.1
    · exact fun hu => (digits_plain hu).2.2 rfl
    · rw [List.length_map]
      omega
  rw [atob, hcore, List.length_map, if_neg (by omega), mapM_value fun n hn => sextets_lt hn, Option.map_some, bytes_sextets]

/-- The padding may be left out. -/
theorem atob_digits (bs : Bytes) : atob ((sextets bs).map digit) = some bs := by
  have hlen := length_sextets bs
  have hfilter : ((sextets bs).map digit).filter (fun u => !isBlank u) = (sextets bs).map digit := by
    rw [List.filter_eq_self]
    intro u hu
    rw [(digits_plain hu).2.1, Bool.not_false]
  have hpad : PAD ∉ (sextets bs).map digit := fun hu => (digits_plain hu).2.2 rfl
  have hunpad := unpad_padded hpad (Nat.zero_le 2)
  rw [List.replicate_zero, List.append_nil] at hunpad
  have hcore : core ((sextets bs).map digit) = (sextets bs).map digit := by
    rw [core, hfilter, hunpad, ite_self]
  rw [atob, hcore, List.length_map, if_neg (by omega), mapM_value fun n hn => sextets_lt hn, Option.map_some, bytes_sextets]

end EncedoChat.Base64
