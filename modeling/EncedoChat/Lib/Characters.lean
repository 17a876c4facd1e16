import EncedoChat.Lib.Utf8
import EncedoChat.Lib.Utf16

/-!
# Well-formed strings

The units of characters: no surrogate stands alone.
-/

namespace EncedoChat.Units

/-- The units of one character. -/
def ofChar (c : Char) : Units :=
  if c.toNat < 0x10000 then [UInt16.ofNat c.toNat]
  else [UInt16.ofNat (0xD800 + (c.toNat - 0x10000) / 0x400), UInt16.ofNat (0xDC00 + (c.toNat - 0x10000) % 0x400)]

def ofChars (cs : List Char) : Units := cs.flatMap ofChar

theorem ofChars_append (a b : List Char) : ofChars (a ++ b) = ofChars a ++ ofChars b := List.flatMap_append

theorem valid (c : Char) : c.toNat < 0xD800 ∨ 0xDFFF < c.toNat ∧ c.toNat < 0x110000 := c.valid

theorem isHigh_iff (u : UInt16) : isHigh u = true ↔ 0xD800 ≤ u.toNat ∧ u.toNat < 0xDC00 := by
  simp [isHigh, UInt16.le_iff_toNat_le, UInt16.lt_iff_toNat_lt]

theorem isLow_iff (u : UInt16) : isLow u = true ↔ 0xDC00 ≤ u.toNat ∧ u.toNat < 0xE000 := by
  simp [isLow, UInt16.le_iff_toNat_le, UInt16.lt_iff_toNat_lt]

theorem toNat_ofNat {n : Nat} (h : n < 0x10000) : (UInt16.ofNat n).toNat = n := UInt16.toNat_ofNat_of_lt' h

/-- One unit that is no surrogate, or two that are a pair. -/
theorem ofChar_cases (c : Char) :
    (∃ u, ofChar c = [u] ∧ u.toNat = c.toNat ∧ isHigh u = false ∧ isLow u = false) ∨
      ∃ h l, ofChar c = [h, l] ∧ 0x10000 ≤ c.toNat ∧ isHigh h = true ∧ isLow l = true ∧
        h.toNat = 0xD800 + (c.toNat - 0x10000) / 0x400 ∧ l.toNat = 0xDC00 + (c.toNat - 0x10000) % 0x400 := by
  have hc := valid c
  by_cases h : c.toNat < 0x10000
  · left
    have hn := toNat_ofNat h
    refine ⟨_, if_pos h, hn, ?_, ?_⟩
    · rw [Bool.eq_false_iff, ne_eq, isHigh_iff, hn]
      omega
    · rw [Bool.eq_false_iff, ne_eq, isLow_iff, hn]
      omega
  · right
    have hh := toNat_ofNat (n := 0xD800 + (c.toNat - 0x10000) / 0x400) (by omega)
    have hl := toNat_ofNat (n := 0xDC00 + (c.toNat - 0x10000) % 0x400) (by omega)
    refine ⟨_, _, if_neg h, by omega, ?_, ?_, hh, hl⟩
    · rw [isHigh_iff, hh]
      omega
    · rw [isLow_iff, hl]
      omega

theorem clean_ofChars (cs : List Char) : Clean (ofChars cs) := by
  cases cs with
  | nil => intro u hu; cases hu
  | cons c cs =>
      intro u hu
      rw [ofChars, List.flatMap_cons] at hu
      rcases ofChar_cases c with ⟨v, hv, -, -, hlow⟩ | ⟨h, l, hhl, -, hh, -, -, -⟩
      · rw [hv] at hu
        obtain rfl := Option.some.inj hu
        exact hlow
      · rw [hhl] at hu
        obtain rfl := Option.some.inj hu
        rw [isHigh_iff] at hh
        rw [Bool.eq_false_iff, ne_eq, isLow_iff]
        omega

/-- The code points of a well-formed string are its characters. -/
theorem points_ofChars (cs : List Char) : points (ofChars cs) = cs.map ofChar := by
  induction cs with
  | nil => rfl
  | cons c cs ih =>
      have hone : points (ofChar c) = [ofChar c] := by
        rcases ofChar_cases c with ⟨u, hu, -, -, -⟩ | ⟨h, l, hhl, -, hh, hl, -, -⟩
        · rw [hu]
          rfl
        · rw [hhl, points, hh, hl]
          rfl
      rw [ofChars, List.flatMap_cons, ← ofChars, points_append (clean_ofChars cs), hone, ih]
      rfl

theorem bytes_congr {m n : Nat} {a b : Bytes} (h : m = n) (hab : a = b) : UInt8.ofNat m :: a = UInt8.ofNat n :: b := by
  rw [h, hab]

theorem utf8Point_ofChar (c : Char) : utf8Point (ofChar c) = String.utf8EncodeChar c := by
  have hc := valid c
  have hval : c.val.toNat = c.toNat := rfl
  rcases ofChar_cases c with ⟨u, hu, hn, hh, hl⟩ | ⟨h, l, hhl, hbig, -, -, hh, hl⟩
  · rw [hu, utf8Point]
    simp only [hn, hh, hl]
    fun_cases String.utf8EncodeChar with
    | case1 v h₁ =>
        rw [if_pos (by omega)]
        rfl
    | case2 v h₁ h₂ =>
        rw [if_neg (by omega), if_pos (by omega)]
        exact bytes_congr (by omega) (bytes_congr (by omega) rfl)
    | case3 v h₁ h₂ h₃ =>
        rw [if_neg (by omega), if_neg (by omega)]
        simp only [Bool.or_self, Bool.false_eq_true, if_false]
        exact bytes_congr (by omega) (bytes_congr (by omega) (bytes_congr (by omega) rfl))
    | case4 v h₁ h₂ h₃ =>
        have hlt := u.toNat_lt
        omega
  · rw [hhl, utf8Point]
    simp only [hh, hl]
    fun_cases String.utf8EncodeChar with
    | case1 v h₁ => omega
    | case2 v h₁ h₂ => omega
    | case3 v h₁ h₂ h₃ => omega
    | case4 v h₁ h₂ h₃ =>
        have hv : 65536 + (55296 + (c.toNat - 65536) / 1024 - 55296) * 1024 +
            (56320 + (c.toNat - 65536) % 1024 - 56320) = c.val.toNat := by omega
        rw [hv]
        exact bytes_congr (by omega) (bytes_congr (by omega) (bytes_congr (by omega) (bytes_congr (by omega) rfl)))

/-- `TextEncoder` of a well-formed string. -/
theorem utf8_ofChars (cs : List Char) : utf8 (ofChars cs) = Utf8.encode cs := by
  rw [utf8, points_ofChars, List.flatMap_map, Utf8.encode]
  congr 1
  funext c
  exact utf8Point_ofChar c

/-! ## Strings that are characters -/

theorem flatten_points (s : Units) : (points s).flatten = s := by
  fun_induction points s <;> simp_all

/-- A code point is one unit, or a pair. -/
theorem points_cases {s p : Units} (h : p ∈ points s) : (∃ u, p = [u]) ∨ ∃ u l, isHigh u = true ∧ isLow l = true ∧ p = [u, l] := by
  fun_induction points s with
  | case1 => cases h
  | case2 u => exact .inl ⟨u, List.mem_singleton.mp h⟩
  | case3 u l us hpair ih =>
      obtain ⟨hu, hl⟩ := Bool.and_eq_true_iff.mp hpair
      rcases List.mem_cons.mp h with rfl | h
      · exact .inr ⟨u, l, hu, hl, rfl⟩
      · exact ih h
  | case4 u l us hpair ih =>
      rcases List.mem_cons.mp h with rfl | h
      · exact .inl ⟨u, rfl⟩
      · exact ih h

theorem toNat_char {n : Nat} (h : n.isValidChar) : (Char.ofNat n).toNat = n := by
  rw [Char.ofNat, dif_pos h]
  rfl

/-- `s.isWellFormed()` -/
def isWellFormed (s : Units) : Bool :=
  (points s).all fun p => match p with
    | [u] => !(isHigh u || isLow u)
    | _ => true

theorem ofChar_one {u : UInt16} (h : (isHigh u || isLow u) = false) : ofChar (Char.ofNat u.toNat) = [u] := by
  obtain ⟨hh, hl⟩ := Bool.or_eq_false_iff.mp h
  have hhigh : ¬(0xD800 ≤ u.toNat ∧ u.toNat < 0xDC00) := fun hc => Bool.eq_false_iff.mp hh ((isHigh_iff u).mpr hc)
  have hlow : ¬(0xDC00 ≤ u.toNat ∧ u.toNat < 0xE000) := fun hc => Bool.eq_false_iff.mp hl ((isLow_iff u).mpr hc)
  have hlt := u.toNat_lt
  have hvalid : u.toNat.isValidChar := by
    rw [Nat.isValidChar]
    omega
  have hnat : (Char.ofNat u.toNat).toNat = u.toNat := toNat_char hvalid
  rw [ofChar, hnat, if_pos hlt, UInt16.ofNat_toNat]

theorem ofChar_pair {h l : UInt16} (hh : isHigh h = true) (hl : isLow l = true) :
    ofChar (Char.ofNat (0x10000 + (h.toNat - 0xD800) * 0x400 + (l.toNat - 0xDC00))) = [h, l] := by
  rw [isHigh_iff] at hh
  rw [isLow_iff] at hl
  have hvalid : (0x10000 + (h.toNat - 0xD800) * 0x400 + (l.toNat - 0xDC00)).isValidChar := by
    rw [Nat.isValidChar]
    omega
  rw [ofChar, toNat_char hvalid, if_neg (by omega)]
  have hhigh : 0xD800 + (0x10000 + (h.toNat - 0xD800) * 0x400 + (l.toNat - 0xDC00) - 0x10000) / 0x400 = h.toNat := by omega
  have hlow : 0xDC00 + (0x10000 + (h.toNat - 0xD800) * 0x400 + (l.toNat - 0xDC00) - 0x10000) % 0x400 = l.toNat := by omega
  rw [hhigh, hlow, UInt16.ofNat_toNat, UInt16.ofNat_toNat]

/-- A string without a surrogate that stands alone. -/
def WellFormed (s : Units) : Prop := ∃ cs, s = ofChars cs

theorem WellFormed.append {a b : Units} (ha : WellFormed a) (hb : WellFormed b) : WellFormed (a ++ b) := by
  obtain ⟨cs, rfl⟩ := ha
  obtain ⟨ds, rfl⟩ := hb
  exact ⟨cs ++ ds, (ofChars_append cs ds).symm⟩

theorem wellFormed_nil : WellFormed [] := ⟨[], rfl⟩

theorem wellFormed_one {u : UInt16} (h : (isHigh u || isLow u) = false) : WellFormed [u] := by
  refine ⟨[Char.ofNat u.toNat], ?_⟩
  rw [ofChars, List.flatMap_cons, List.flatMap_nil, List.append_nil, ofChar_one h]

theorem wellFormed_pair {h l : UInt16} (hh : isHigh h = true) (hl : isLow l = true) : WellFormed [h, l] := by
  refine ⟨[Char.ofNat (0x10000 + (h.toNat - 0xD800) * 0x400 + (l.toNat - 0xDC00))], ?_⟩
  rw [ofChars, List.flatMap_cons, List.flatMap_nil, List.append_nil, ofChar_pair hh hl]

theorem wellFormed_ascii {s : Units} (h : ∀ u ∈ s, Ascii u) : WellFormed s := by
  induction s with
  | nil => exact wellFormed_nil
  | cons u s ih =>
      have hu := h u List.mem_cons_self
      have hone : WellFormed [u] := wellFormed_one (by rw [hu.not_high, hu.not_low]; rfl)
      exact hone.append (ih fun v hv => h v (List.mem_cons_of_mem u hv))

theorem wellFormed_flatMap {α : Type} {l : List α} {f : α → Units} (h : ∀ a ∈ l, WellFormed (f a)) : WellFormed (l.flatMap f) := by
  induction l with
  | nil => exact wellFormed_nil
  | cons a l ih =>
      rw [List.flatMap_cons]
      exact (h a List.mem_cons_self).append (ih fun b hb => h b (List.mem_cons_of_mem a hb))

theorem isWellFormed_iff (s : Units) : isWellFormed s = true ↔ WellFormed s := by
  constructor
  · intro h
    have hpoints : ∀ p ∈ points s, WellFormed p := by
      intro p hp
      have hok := List.all_eq_true.mp h p hp
      rcases points_cases hp with ⟨u, rfl⟩ | ⟨u, l, hu, hl, rfl⟩
      · exact wellFormed_one (by simpa using hok)
      · exact wellFormed_pair hu hl
    have hall := wellFormed_flatMap hpoints
    rwa [List.flatMap_id', flatten_points] at hall
  · rintro ⟨cs, rfl⟩
    rw [isWellFormed, points_ofChars, List.all_map, List.all_eq_true]
    intro c _
    rcases ofChar_cases c with ⟨u, hu, -, hh, hl⟩ | ⟨h, l, hhl, -⟩
    · simp [hu, hh, hl]
    · simp [hhl]

/-- `new TextDecoder().decode(b)` -/
def ofUtf8 (b : Bytes) : Units := ofChars (Utf8.decode b)

/-- What was encoded is decoded; a mark at its start would be dropped. -/
theorem ofUtf8_utf8 {s : Units} (h : WellFormed s) (hmark : s.head? ≠ some 0xFEFF) : ofUtf8 (utf8 s) = s := by
  obtain ⟨cs, rfl⟩ := h
  rw [ofUtf8, utf8_ofChars, Utf8.decode_encode]
  intro hcs
  cases cs with
  | nil => cases hcs
  | cons c cs =>
      obtain rfl := Option.some.inj hcs
      exact hmark rfl

end EncedoChat.Units
