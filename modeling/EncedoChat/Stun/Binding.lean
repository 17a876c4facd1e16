import EncedoChat.Geoip.Ip
import Mathlib.Data.List.Zip

/-!
# The bytes of an address text

`ipBytes` of `stun.mjs`, and the text of an address as `inet_ntop` prints it. `Number` of a text is the platform's.
-/

namespace EncedoChat.Stun

open Units
open Geoip (COLON DOT Family formatIp isDigit readDigits decValue hexValue splitDouble splitHalf hexText)

/-- Is an address of IPv6 printed with the last four bytes as those of IPv4? Some platforms print more of them so. -/
def dotted (more : Bool) (n : Nat) : Bool :=
  n / 2 ^ 32 = 0xFFFF || (2 ^ 16 ≤ n && n < 2 ^ 32) || (more && 2 ≤ n && n < 2 ^ 16)

/-- `inet_ntop` -/
def inetNtop (more : Bool) (v : Family) (n : Nat) : Units :=
  match v with
  | .v4 => formatIp .v4 n
  | .v6 =>
    if dotted more n then
      if n / 2 ^ 32 = 0xFFFF then ascii "::ffff:" ++ formatIp .v4 (n % 2 ^ 32) else [COLON, COLON] ++ formatIp .v4 n
    else formatIp .v6 n

/-- `%` and a zone, if there is one. -/
def zoneText (zone : Option Units) : Units := (zone.map (0x25 :: ·)).getD []

/-- `\d+\.\d+\.\d+\.\d+` -/
def isQuad (s : Units) : Bool := (s.splitOn DOT).length = 4 && (s.splitOn DOT).all fun x => x ≠ [] && x.all isDigit

/-- `/^::ffff:(\d+\.\d+\.\d+\.\d+)$/i.exec(address)` -/
def mappedQuad (address : Units) : Option Units :=
  if (address.take 7).map (fun u => if u = 0x46 then 0x66 else u) = ascii "::ffff:" ∧ isQuad (address.drop 7) then
    some (address.drop 7)
  else none

/-- Is there a minus, and what follows the sign. -/
def sign : Units → Bool × Units
  | [] => (false, [])
  | u :: r => if u = 0x2D then (true, r) else if u = 0x2B then (false, r) else (false, u :: r)

/-- What follows `0x`. -/
def unmark (s : Units) : Units :=
  match s with
  | u :: v :: r => if u = 0x30 ∧ (v = 0x78 ∨ v = 0x58) then r else s
  | _ => s

/-- `parseInt(s, 16)` -/
def parseInt16 (s : Units) : Option Int :=
  let signed := sign (s.dropWhile isSpace)
  let digits := (unmark signed.2).takeWhile fun u => (Descr.hexValue u).isSome
  if digits = [] then none
  else if signed.1 then some (-(readDigits 16 hexValue digits : Int)) else some (readDigits 16 hexValue digits : Int)

/-- The number, if `Number.isInteger(n)`. -/
def isInteger (n : Option ℚ) : Option Int := n.bind fun q => if q.den = 1 then some q.num else none

def within (top : Int) (n : Option Int) : Option Nat := n.bind fun i => if 0 ≤ i ∧ i ≤ top then some i.toNat else none

section
variable (number : Units → Option ℚ)

def quadBytes (s : Units) : Option Bytes :=
  let parts := s.splitOn DOT
  if parts.length ≠ 4 then none else parts.mapM fun x => (within 255 (isInteger (number x))).map UInt8.ofNat

def readWord (g : Units) : Option Nat := within 0xFFFF (parseInt16 (if g = [] then [0x30] else g))

def wordBytes (s : Units) : Option Bytes :=
  let parts := splitDouble (s.takeWhile (· ≠ 0x25))
  let h := splitHalf (parts.headD [])
  let t := splitHalf (parts.tail.headD [])
  if parts.tail = [] ∧ h.length ≠ 8 then none
  else if 8 < h.length + t.length then none
  else ((h ++ List.replicate (8 - h.length - t.length) [0x30] ++ t).mapM readWord).map (List.flatMap Bytes.u16be)

/-- `::ffff:1.2.3.4` is an IPv4 client on a dual-stack socket. -/
def ipBytes (address : Units) (v6 : Bool) : Option Bytes :=
  match mappedQuad address with
  | some quad => quadBytes number quad
  | none => if v6 then wordBytes address else quadBytes number address

end

/-- What the platform's `Number` makes of decimal digits. -/
structure Numerals (number : Units → Option ℚ) : Prop where
  digits : ∀ s, s ≠ [] → (∀ u ∈ s, isDigit u = true) → readDigits 10 decValue s < 2 ^ 53 →
    number s = some (readDigits 10 decValue s : ℚ)

/-! ## Numbers -/

/-- What stops a run of digits. -/
def Stops (u : UInt16) : Prop := Descr.hexValue u = none ∧ u ≠ 0x78 ∧ u ≠ 0x58

theorem lowerHex_ne {u v : UInt16} (h : Descr.IsLowerHex u) (hv : ¬Descr.IsLowerHex v) : u ≠ v := by
  rintro rfl
  exact hv h

theorem unmark_hex {u : UInt16} {s : Units} (hs : ∀ v ∈ s.head?, v ≠ 0x78 ∧ v ≠ 0x58) : unmark (u :: s) = u :: s := by
  cases s with
  | nil => rfl
  | cons v r =>
      obtain ⟨hx, hX⟩ := hs v rfl
      rw [unmark, if_neg]
      rintro ⟨-, h⟩
      exact h.elim hx hX

theorem parseInt16_hex {s r : Units} (hs : s ≠ []) (hhex : ∀ u ∈ s, Descr.IsLowerHex u) (hr : ∀ u ∈ r.head?, Stops u) :
    parseInt16 (s ++ r) = some (readDigits 16 hexValue s : Int) := by
  have hdigits : (s ++ r).takeWhile (fun u => (Descr.hexValue u).isSome) = s := by
    have hall : ∀ u ∈ s, (Descr.hexValue u).isSome = true := by
      intro u hu
      obtain ⟨n, -, hn, -⟩ := Descr.hexValue_of_lower (hhex u hu)
      rw [hn]
      rfl
    rw [List.takeWhile_append_of_pos hall]
    cases r with
    | nil => simp
    | cons u r => simp [(hr u rfl).1]
  cases s with
  | nil => exact absurd rfl hs
  | cons u s =>
      have hu := hhex u List.mem_cons_self
      have hspace : isSpace u = false := Geoip.not_space (by rcases hu with h | h <;> omega) (by rcases hu with h | h <;> omega)
      have hdrop : (u :: (s ++ r)).dropWhile isSpace = u :: (s ++ r) := by simp [hspace]
      have hsign : sign (u :: (s ++ r)) = (false, u :: (s ++ r)) := by
        rw [sign, if_neg (lowerHex_ne hu (by unfold Descr.IsLowerHex; decide)),
          if_neg (lowerHex_ne hu (by unfold Descr.IsLowerHex; decide))]
      have hmark : unmark (u :: (s ++ r)) = u :: (s ++ r) := by
        refine unmark_hex ?_
        cases s with
        | nil => exact fun v hv => (hr v hv).2
        | cons v s =>
            rintro _ ⟨⟩
            have hv := hhex v (by simp)
            exact ⟨lowerHex_ne hv (by unfold Descr.IsLowerHex; decide), lowerHex_ne hv (by unfold Descr.IsLowerHex; decide)⟩
      rw [List.cons_append] at hdigits ⊢
      simp only [parseInt16, hdrop, hsign, hmark, hdigits]
      simp

theorem readWord_hexText {n : Nat} (h : n < 65536) : readWord (hexText n) = some n := by
  have hparse := parseInt16_hex (r := []) (Geoip.hexText_ne_nil n) (fun u hu => Geoip.isHex_hexText hu) (by simp)
  rw [List.append_nil, Geoip.readDigits_hexText] at hparse
  simp [readWord, if_neg (Geoip.hexText_ne_nil n), hparse, within]
  omega

/-! ## Texts -/

theorem takeWhile_zone {s : Units} (hs : 0x25 ∉ s) (zone : Option Units) : (s ++ zoneText zone).takeWhile (· ≠ 0x25) = s := by
  have hall : ∀ u ∈ s, decide (u ≠ 0x25) = true := by
    intro u hu
    rw [decide_eq_true_iff]
    rintro rfl
    exact hs hu
  rw [List.takeWhile_append_of_pos hall]
  cases zone <;> simp [zoneText]

theorem mapM_readWord {l : List Nat} (h : ∀ k ∈ l, k < 65536) : (l.map hexText).mapM readWord = some l := by
  induction l with
  | nil => rfl
  | cons k l ih =>
      obtain ⟨hk, hl⟩ := List.forall_mem_cons.mp h
      simp [readWord_hexText hk, ih hl]

theorem flatMap_groups (n : Nat) :
    ([7, 6, 5, 4, 3, 2, 1, 0].map fun i => n / 2 ^ (16 * i) % 65536).flatMap Bytes.u16be = Bytes.ofNat 16 n := by
  have hlow : ∀ m, Bytes.u16be (m % 65536) = Bytes.u16be m := by
    intro m
    simp only [Bytes.u16be, Bytes.ofNat, List.nil_append, List.cons_append, List.cons.injEq, and_true]
    constructor <;> apply UInt8.toNat_inj.mp <;> simp only [UInt8.toNat_ofNat'] <;> omega
  have hsplit : ∀ k m, Bytes.ofNat (k + 2) m = Bytes.ofNat k (m / 65536) ++ Bytes.u16be m := by
    intro k m
    simp only [Bytes.u16be, Bytes.ofNat, List.nil_append, List.append_assoc, Nat.div_div_eq_div_mul]
  simp only [List.map_cons, List.map_nil, List.flatMap_cons, List.flatMap_nil, hlow, hsplit 14, hsplit 12, hsplit 10, hsplit 8,
    hsplit 6, hsplit 4, hsplit 2, hsplit 0, Nat.div_div_eq_div_mul]
  simp [Bytes.ofNat]

theorem format_v6_no_zone (n : Nat) : 0x25 ∉ formatIp .v6 n := by
  intro h
  rcases Geoip.mem_format_v6 h with h | h
  · exact absurd h (by decide)
  · exact absurd h (by unfold Descr.IsLowerHex; decide)

/-- What is left to be filled with zeros between two parts of the groups. -/
theorem wordBytes_plain {n : Nat} (zone : Option Units) :
    wordBytes (formatIp .v6 n ++ zoneText zone) = some (Bytes.ofNat 16 n) := by
  have hparts : Geoip.Parts (Geoip.groups n) := fun x hx => (Geoip.parts_groups n x hx).1
  have hlen : (Geoip.groups n).length = 8 := rfl
  have hwords : ((Geoip.groups n).mapM readWord).map (List.flatMap Bytes.u16be) = some (Bytes.ofNat 16 n) := by
    have hlt : ∀ k ∈ [7, 6, 5, 4, 3, 2, 1, 0].map fun i => n / 2 ^ (16 * i) % 65536, k < 65536 := by
      intro k hk
      obtain ⟨i, -, rfl⟩ := List.mem_map.mp hk
      exact Nat.mod_lt _ (by decide)
    rw [Geoip.groups_eq, mapM_readWord hlt, Option.map_some, flatMap_groups]
  rw [wordBytes, takeWhile_zone (format_v6_no_zone n)]
  rcases Geoip.format_v6 n with hone | ⟨best, len, hle, hgroups, htwo⟩
  · rw [hone, Geoip.splitDouble_one hparts]
    have hnil : splitHalf [] = [] := rfl
    simp only [List.headD_cons, List.tail_cons, List.headD_nil, Geoip.splitHalf_join hparts, hnil, hlen, List.length_nil]
    rw [if_neg (by simp), if_neg (by decide), List.append_nil]
    rw [show 8 - 8 - 0 = 0 from rfl, List.replicate_zero, List.append_nil]
    exact hwords
  · have hl : Geoip.Parts ((Geoip.groups n).take best) := fun x hx => hparts x (List.mem_of_mem_take hx)
    have hr : Geoip.Parts ((Geoip.groups n).drop (best + len)) := fun x hx => hparts x (List.mem_of_mem_drop hx)
    have hfill : 8 - ((Geoip.groups n).take best).length - ((Geoip.groups n).drop (best + len)).length = len := by
      rw [List.length_take, List.length_drop, hlen]
      omega
    have hfits : ¬8 < ((Geoip.groups n).take best).length + ((Geoip.groups n).drop (best + len)).length := by
      rw [List.length_take, List.length_drop, hlen]
      omega
    rw [htwo, Geoip.splitDouble_two hl hr]
    simp only [List.headD_cons, List.tail_cons, Geoip.splitHalf_join hl, Geoip.splitHalf_join hr, if_neg hfits, hfill, ← hgroups,
      hwords]
    simp

/-! ## Four bytes -/

variable {number : Units → Option ℚ}

theorem num_digits {n : Nat} : ∀ u ∈ num n, Geoip.isDigit u = true := fun _ hu => Geoip.isDigit_num hu

theorem mapM_octet (hnumber : Numerals number) {l : List Nat} (h : ∀ k ∈ l, k < 256) :
    (l.map num).mapM (fun x => (within 255 (isInteger (number x))).map UInt8.ofNat) = some (l.map UInt8.ofNat) := by
  induction l with
  | nil => rfl
  | cons k l ih =>
      obtain ⟨hk, hl⟩ := List.forall_mem_cons.mp h
      have hread : number (num k) = some (k : ℚ) := by
        have := hnumber.digits (num k) (num_ne_nil k) num_digits
        rw [Geoip.readDigits_num] at this
        exact this (by omega)
      have hbyte : within 255 (isInteger (number (num k))) = some k := by
        simp [hread, isInteger, within]
        omega
      simp [hbyte, ih hl]

theorem octets (n : Nat) : ([24, 16, 8, 0].map fun s => n / 2 ^ s % 256).map UInt8.ofNat = Bytes.u32be n := by
  simp only [List.map_cons, List.map_nil, Bytes.u32be, Bytes.ofNat, List.nil_append, List.cons_append, Nat.div_div_eq_div_mul,
    List.cons.injEq, and_true]
  refine ⟨?_, ?_, ?_, ?_⟩ <;> apply UInt8.toNat_inj.mp <;> simp only [UInt8.toNat_ofNat'] <;> omega

theorem quadBytes_format (hnumber : Numerals number) (n : Nat) : quadBytes number (formatIp .v4 n) = some (Bytes.u32be n) := by
  have hmap : ([24, 16, 8, 0].map fun s => num (n / 2 ^ s % 256)) = ([24, 16, 8, 0].map fun s => n / 2 ^ s % 256).map num := rfl
  have hlt : ∀ k ∈ [24, 16, 8, 0].map fun s => n / 2 ^ s % 256, k < 256 := by
    intro k hk
    obtain ⟨s, -, rfl⟩ := List.mem_map.mp hk
    exact Nat.mod_lt _ (by decide)
  rw [quadBytes, Geoip.splitOn_v4, if_neg (by simp), hmap, mapM_octet hnumber hlt, octets]

theorem isQuad_format (n : Nat) : isQuad (formatIp .v4 n) = true := by
  simp [isQuad, Geoip.splitOn_v4, num_ne_nil]
  exact ⟨num_digits, num_digits, num_digits, num_digits⟩

theorem format_v4_head (n : Nat) : ∃ u s, formatIp .v4 n = u :: s ∧ Geoip.isDigit u = true := by
  cases hf : formatIp .v4 n with
  | nil =>
      have := isQuad_format n
      simp [hf, isQuad] at this
  | cons u s =>
      refine ⟨u, s, rfl, ?_⟩
      rw [formatIp, List.map_cons, List.map_cons, List.intercalate_cons_of_ne_nil (by simp)] at hf
      cases hnum : num (n / 2 ^ 24 % 256) with
      | nil => exact absurd hnum (num_ne_nil _)
      | cons v r =>
          rw [hnum] at hf
          cases hf
          exact num_digits u (by rw [hnum]; exact List.mem_cons_self)

/-! ## Which text is mapped -/

theorem mappedQuad_some {s quad : Units} (h : mappedQuad s = some quad) :
    (s.take 7).map (fun u => if u = 0x46 then 0x66 else u) = ascii "::ffff:" ∧ isQuad (s.drop 7) = true ∧ quad = s.drop 7 := by
  rw [mappedQuad] at h
  split at h
  · rename_i hif
    exact ⟨hif.1, hif.2, (Option.some.inj h).symm⟩
  · cases h

theorem mappedQuad_mapped (n : Nat) : mappedQuad (ascii "::ffff:" ++ formatIp .v4 n) = some (formatIp .v4 n) := by
  have htake : (ascii "::ffff:" ++ formatIp .v4 n).take 7 = ascii "::ffff:" := List.take_left' (by simp [ascii])
  have hdrop : (ascii "::ffff:" ++ formatIp .v4 n).drop 7 = formatIp .v4 n := List.drop_left' (by simp [ascii])
  rw [mappedQuad, htake, hdrop, if_pos ⟨by simp [ascii], isQuad_format n⟩]

theorem mem_isQuad {s : Units} (h : isQuad s = true) {u : UInt16} (hu : u ∈ s) : u = DOT ∨ Geoip.isDigit u = true := by
  rw [isQuad, Bool.and_eq_true] at h
  have hjoin : [DOT].intercalate (s.splitOn DOT) = s := List.intercalate_splitOn DOT
  rw [← hjoin] at hu
  rcases Geoip.mem_intercalate hu with hdot | ⟨x, hx, hux⟩
  · exact .inl hdot
  · have hall := List.all_eq_true.mp h.2 x hx
    exact .inr (List.all_eq_true.mp (Bool.and_eq_true_iff.mp hall).2 u hux)

/-- What a mapped text has none of. -/
theorem not_mapped {s : Units} {u : UInt16} (hu : u ∈ s) (hdot : u ≠ DOT) (hdigit : Geoip.isDigit u = false)
    (hother : u ∉ ascii "::ffff:" ∧ u ≠ 0x46) : mappedQuad s = none := by
  cases hm : mappedQuad s with
  | none => rfl
  | some quad =>
      obtain ⟨hhead, hquad, -⟩ := mappedQuad_some hm
      rw [← List.take_append_drop 7 s, List.mem_append] at hu
      rcases hu with h | h
      · have hmem := List.mem_map_of_mem (f := fun u => if u = (0x46 : UInt16) then (0x66 : UInt16) else u) h
        rw [hhead, if_neg hother.2] at hmem
        exact absurd hmem hother.1
      · rcases mem_isQuad hquad h with h | h
        · exact absurd h hdot
        · rw [hdigit] at h
          cases h

theorem not_mapped_zone {s : Units} (zone : Units) : mappedQuad (s ++ zoneText (some zone)) = none := by
  have hmem : 0x25 ∈ s ++ zoneText (some zone) := by simp [zoneText]
  exact not_mapped hmem (by decide) (by decide) (by simp [ascii])

theorem not_mapped_plain {s : Units} (h : DOT ∉ s) : mappedQuad s = none := by
  cases hm : mappedQuad s with
  | none => rfl
  | some quad =>
      obtain ⟨-, hquad, -⟩ := mappedQuad_some hm
      have hsplit : (s.drop 7).splitOn DOT = [s.drop 7] := List.splitOn_eq_singleton fun hd => h (List.mem_of_mem_drop hd)
      simp [isQuad, hsplit] at hquad

theorem not_mapped_digit {s : Units} {u : UInt16} (hu : u ∈ s.take 7) (hdigit : Geoip.isDigit u = true) : mappedQuad s = none := by
  cases hm : mappedQuad s with
  | none => rfl
  | some quad =>
      have hmem := List.mem_map_of_mem (f := fun u => if u = (0x46 : UInt16) then (0x66 : UInt16) else u) hu
      rw [(mappedQuad_some hm).1] at hmem
      have hbounds := Geoip.isDigit_bounds hdigit
      have hne : u ≠ 0x46 := by
        rintro rfl
        exact absurd hbounds.2 (by decide)
      rw [if_neg hne] at hmem
      simp only [ascii, String.reduceToList, List.map_cons, List.map_nil, List.mem_cons, List.not_mem_nil, or_false] at hmem
      rcases hmem with rfl | rfl | rfl | rfl | rfl | rfl | rfl <;> exact absurd hbounds.2 (by decide)

/-! ## The bytes of each text -/

theorem ipBytes_v4 (hnumber : Numerals number) (more : Bool) (n : Nat) :
    ipBytes number (inetNtop more .v4 n) false = some (Bytes.u32be n) := by
  obtain ⟨u, s, hf, hu⟩ := format_v4_head n
  have hnone : mappedQuad (formatIp .v4 n) = none := not_mapped_digit (by rw [hf]; simp) hu
  rw [inetNtop, ipBytes, hnone]
  exact quadBytes_format hnumber n

theorem ipBytes_plain {more : Bool} {n : Nat} (h : dotted more n = false) (zone : Option Units) :
    ipBytes number (inetNtop more .v6 n ++ zoneText zone) true = some (Bytes.ofNat 16 n) := by
  have hnone : mappedQuad (formatIp .v6 n ++ zoneText zone) = none := by
    cases zone with
    | none =>
        refine not_mapped_plain ?_
        intro hdot
        rw [zoneText, Option.map_none, Option.getD_none, List.append_nil] at hdot
        rcases Geoip.mem_format_v6 hdot with hc | hc
        · exact absurd hc (by decide)
        · exact absurd hc (by unfold Descr.IsLowerHex; decide)
    | some zone => exact not_mapped_zone zone
  rw [inetNtop, h, if_neg Bool.false_ne_true, ipBytes, hnone]
  exact wordBytes_plain zone

theorem ipBytes_mapped (hnumber : Numerals number) {more : Bool} {n : Nat} (h : n / 2 ^ 32 = 0xFFFF) :
    ipBytes number (inetNtop more .v6 n ++ zoneText none) true = some (Bytes.u32be n) := by
  have hdotted : dotted more n = true := by simp only [dotted, h, decide_true, Bool.true_or]
  have hlow : Bytes.u32be (n % 2 ^ 32) = Bytes.u32be n := by
    rw [← octets, ← octets]
    simp only [List.map_cons, List.map_nil, List.cons.injEq, and_true]
    refine ⟨?_, ?_, ?_, ?_⟩ <;> congr 1 <;> omega
  rw [inetNtop, hdotted, if_pos rfl, if_pos h, zoneText, Option.map_none, Option.getD_none, List.append_nil, ipBytes,
    mappedQuad_mapped]
  exact (quadBytes_format hnumber _).trans (by rw [hlow])

/-! ## Four bytes among the words -/

theorem wordBytes_low {r : List Units} (hr : Geoip.Parts r) (hlen : r.length ≤ 8) (hno : 0x25 ∉ [COLON].intercalate r)
    (zone : Option Units) : wordBytes ([COLON, COLON] ++ [COLON].intercalate r ++ zoneText zone) =
      ((List.replicate (8 - r.length) [0x30] ++ r).mapM readWord).map (List.flatMap Bytes.u16be) := by
  have hpercent : 0x25 ∉ [COLON, COLON] ++ [COLON].intercalate r := by
    rw [List.mem_append, not_or]
    exact ⟨by decide, hno⟩
  have hsplit : splitDouble ([COLON, COLON] ++ [COLON].intercalate r) = [[], [COLON].intercalate r] :=
    Geoip.splitDouble_two (l := []) (fun x hx => absurd hx List.not_mem_nil) hr
  have hnil : splitHalf [] = [] := rfl
  rw [wordBytes, takeWhile_zone hpercent, hsplit]
  simp only [List.headD_cons, List.tail_cons, Geoip.splitHalf_join hr, hnil, List.length_nil, Nat.zero_add, Nat.sub_zero,
    List.nil_append]
  rw [if_neg (by simp), if_neg (by omega)]

theorem format_v4_cons (n : Nat) : ∃ rest, formatIp .v4 n = num (n / 2 ^ 24 % 256) ++ DOT :: rest := by
  rw [formatIp, List.map_cons, List.map_cons, List.intercalate_cons_of_ne_nil (by simp)]
  exact ⟨_, by rw [List.append_assoc]; rfl⟩

/-- The digits of the first byte, read to another base. -/
def misread (n : Nat) : Nat := readDigits 16 hexValue (num (n / 2 ^ 24 % 256))

theorem misread_lt (n : Nat) : misread n < 65536 := by
  have hall : ∀ k < 256, readDigits 16 hexValue (num k) < 65536 := by decide +kernel
  exact hall _ (Nat.mod_lt _ (by decide))

theorem readWord_quad (n : Nat) : readWord (formatIp .v4 n) = some (misread n) := by
  obtain ⟨rest, hf⟩ := format_v4_cons n
  have hhex : ∀ u ∈ num (n / 2 ^ 24 % 256), Descr.IsLowerHex u := fun u hu => .inl (Geoip.isDigit_bounds (num_digits u hu))
  have hstop : ∀ u ∈ (DOT :: rest).head?, Stops u := by
    rintro _ ⟨⟩
    exact ⟨by decide, by decide, by decide⟩
  have hparse := parseInt16_hex (num_ne_nil _) hhex hstop
  rw [← hf] at hparse
  have hne : formatIp .v4 n ≠ [] := by simp [hf]
  have hlt : ((misread n : Nat) : Int) ≤ 0xFFFF := by
    have := misread_lt n
    omega
  rw [readWord, if_neg hne, hparse, within, Option.bind_some, if_pos ⟨Int.natCast_nonneg _, hlt⟩]
  rfl

theorem parts_quad (n : Nat) : formatIp .v4 n ≠ [] ∧ COLON ∉ formatIp .v4 n ∧ 0x25 ∉ formatIp .v4 n := by
  obtain ⟨u, s, hf, -⟩ := format_v4_head n
  refine ⟨by simp [hf], fun h => ?_, fun h => ?_⟩ <;> rcases Geoip.mem_format_v4 h with h | h <;> exact absurd h (by decide)

theorem readWord_zero : readWord [0x30] = some 0 := by
  decide

theorem ipBytes_low (m : Nat) (zone : Option Units) :
    ipBytes number ([COLON, COLON] ++ formatIp .v4 m ++ zoneText zone) true = some (Bytes.ofNat 16 (misread m)) := by
  obtain ⟨u, s, hf, hu⟩ := format_v4_head m
  obtain ⟨hne, hcolon, hpercent⟩ := parts_quad m
  have hnone : mappedQuad ([COLON, COLON] ++ formatIp .v4 m ++ zoneText zone) = none :=
    not_mapped_digit (by rw [hf]; simp) hu
  have hr : Geoip.Parts [formatIp .v4 m] := by simpa [Geoip.Parts] using ⟨hne, hcolon⟩
  have hwords := wordBytes_low hr (by simp) (by simpa using hpercent) zone
  rw [List.intercalate_singleton] at hwords
  have hlt := misread_lt m
  have hgroups : [7, 6, 5, 4, 3, 2, 1, 0].map (fun i => misread m / 2 ^ (16 * i) % 65536) = [0, 0, 0, 0, 0, 0, 0, misread m] := by
    simp only [List.map_cons, List.map_nil, List.cons.injEq, and_true]
    omega
  rw [ipBytes, hnone, if_pos rfl, hwords, ← flatMap_groups, hgroups]
  simp [List.replicate, readWord_zero, readWord_quad]

theorem ipBytes_mapped_zone (m : Nat) (zone : Units) :
    ipBytes number (ascii "::ffff:" ++ formatIp .v4 m ++ zoneText (some zone)) true =
      some (Bytes.ofNat 16 (0xFFFF * 65536 + misread m)) := by
  obtain ⟨hne, hcolon, hpercent⟩ := parts_quad m
  have hffff : readWord (ascii "ffff") = some 0xFFFF := by
    have htext : ascii "ffff" = hexText 0xFFFF := by simp [ascii, hexText, hexDigit]
    rw [htext]
    exact readWord_hexText (by decide)
  have hr : Geoip.Parts [ascii "ffff", formatIp .v4 m] := by
    simpa [Geoip.Parts, ascii, COLON] using ⟨hne, hcolon⟩
  have hjoin : [COLON].intercalate [ascii "ffff", formatIp .v4 m] = ascii "ffff:" ++ formatIp .v4 m := by
    rw [List.intercalate_cons_of_ne_nil (by simp), List.intercalate_singleton]
    simp [ascii, COLON]
  have htext : ascii "::ffff:" ++ formatIp .v4 m = [COLON, COLON] ++ [COLON].intercalate [ascii "ffff", formatIp .v4 m] := by
    rw [hjoin]
    simp [ascii, COLON]
  have hno : 0x25 ∉ [COLON].intercalate [ascii "ffff", formatIp .v4 m] := by
    rw [hjoin, List.mem_append, not_or]
    exact ⟨by simp [ascii], hpercent⟩
  have hwords := wordBytes_low hr (by simp) hno (some zone)
  have hlt := misread_lt m
  have hgroups : [7, 6, 5, 4, 3, 2, 1, 0].map (fun i => (0xFFFF * 65536 + misread m) / 2 ^ (16 * i) % 65536) =
      [0, 0, 0, 0, 0, 0, 0xFFFF, misread m] := by
    simp only [List.map_cons, List.map_nil, List.cons.injEq, and_true]
    omega
  rw [ipBytes, not_mapped_zone zone, if_pos rfl, htext, hwords, ← flatMap_groups, hgroups]
  simp [List.replicate, readWord_zero, readWord_quad, hffff]

/-- Where the last four bytes are printed as those of IPv4, and the whole is not a mapped address without a zone, it is
read as another one. -/
theorem ipBytes_misread {more : Bool} {n : Nat} (h : dotted more n = true) (zone : Option Units)
    (hmapped : n / 2 ^ 32 = 0xFFFF → zone ≠ none) :
    ∃ m < 2 ^ 128, m ≠ n ∧ ipBytes number (inetNtop more .v6 n ++ zoneText zone) true = some (Bytes.ofNat 16 m) := by
  have hlt := misread_lt
  by_cases hhigh : n / 2 ^ 32 = 0xFFFF
  · obtain ⟨z, rfl⟩ := Option.ne_none_iff_exists'.mp (hmapped hhigh)
    refine ⟨0xFFFF * 65536 + misread (n % 2 ^ 32), ?_, ?_, ?_⟩
    · have := hlt (n % 2 ^ 32)
      omega
    · have := hlt (n % 2 ^ 32)
      omega
    · rw [inetNtop, h, if_pos rfl, if_pos hhigh]
      exact ipBytes_mapped_zone _ z
  · refine ⟨misread n, ?_, ?_, ?_⟩
    · have := hlt n
      omega
    · have hzero : n < 2 ^ 16 → misread n = 0 := by
        intro hsmall
        rw [misread, Nat.div_eq_of_lt (hsmall.trans (by decide))]
        rfl
      have := hlt n
      simp only [dotted, Bool.or_eq_true, Bool.and_eq_true, decide_eq_true_eq] at h
      omega
    · rw [inetNtop, h, if_pos rfl, if_neg hhigh]
      exact ipBytes_low n zone

end EncedoChat.Stun

/-!
# A Binding Request and its answer

`bindingRequestId` and `bindingResponse` of `stun.mjs`, and a reader of the answer as RFC 5389 has it.
-/

namespace EncedoChat.Stun

open Units
open Geoip (Family)

def COOKIE : Nat := 0x2112A442

def BINDING_REQUEST : Nat := 0x0001

def BINDING_SUCCESS : Nat := 0x0101

def XOR_MAPPED_ADDRESS : Nat := 0x0020

def HEADER : Nat := 20

def bindingRequestId (buf : Bytes) : Option Bytes :=
  if buf.length < HEADER then none
  else if Bytes.getU16 buf 0 ≠ BINDING_REQUEST then none
  else if Bytes.getU32 buf 4 ≠ COOKIE then none
  else if Bytes.getU16 buf 2 % 4 ≠ 0 ∨ HEADER + Bytes.getU16 buf 2 ≠ buf.length then none
  else some (Bytes.slice buf 8 20)

/-- Byte by byte, as far as the bytes go. -/
def xorBytes (raw mask : Bytes) : Bytes := raw.zipWith (· ^^^ ·) mask

def maskOf (v6 : Bool) (tid : Bytes) : Bytes := if v6 then Bytes.u32be COOKIE ++ tid else Bytes.u32be COOKIE

def portMask : Nat := COOKIE / 65536

/-- The value of the attribute; what is not written stays zero. -/
def addressValue (v6 : Bool) (tid raw : Bytes) (port : UInt16) : Bytes :=
  [0, if v6 then 2 else 1] ++ Bytes.u16be (port.toNat ^^^ portMask) ++ xorBytes raw (maskOf v6 tid) ++
    List.replicate ((if v6 then 16 else 4) - raw.length) 0

/-- A message: its type, the length of what follows the header, the cookie and the transaction id. -/
def message (type len : Nat) (tid body : Bytes) : Bytes :=
  Bytes.u16be type ++ (Bytes.u16be len ++ (Bytes.u32be COOKIE ++ (tid ++ body)))

def bindingResponse (number : Units → Option ℚ) (tid : Bytes) (address : Units) (port : UInt16) (v6 : Bool) : Option Bytes :=
  (ipBytes number address v6).map fun raw =>
    let value := addressValue v6 tid raw port
    message BINDING_SUCCESS (4 + value.length) tid
      (Bytes.u16be XOR_MAPPED_ADDRESS ++ (Bytes.u16be value.length ++ value))

/-- What the server sends to a source, if anything. -/
def answer (number : Units → Option ℚ) (buf : Bytes) (address : Units) (port : UInt16) (v6 : Bool) : Option Bytes :=
  (bindingRequestId buf).bind fun tid => bindingResponse number tid address port v6

/-! ## The reader -/

/-- The value of the first attribute of a type; a value is padded to whole words. -/
def findAttribute (type : Nat) : Nat → Bytes → Option Bytes
  | 0, _ => none
  | fuel + 1, b =>
    let len := Bytes.getU16 b 2
    if b.length < 4 + len then none
    else if Bytes.getU16 b 0 = type then some (Bytes.slice b 4 (4 + len))
    else findAttribute type fuel (b.drop (4 + (len + 3) / 4 * 4))

/-- XOR-MAPPED-ADDRESS: the family, the address and the port. -/
def readAddress (tid value : Bytes) : Option (Family × Nat × Nat) :=
  let port := Bytes.getU16 value 2 ^^^ portMask
  if value.getD 1 0 = 1 ∧ value.length = 8 then some (.v4, Bytes.toNat (xorBytes (value.drop 4) (maskOf false tid)), port)
  else if value.getD 1 0 = 2 ∧ value.length = 20 then
    some (.v6, Bytes.toNat (xorBytes (value.drop 4) (maskOf true tid)), port)
  else none

/-- The transaction id, and what the answer says of the source. -/
def readResponse (b : Bytes) : Option (Bytes × Family × Nat × Nat) :=
  if HEADER ≤ b.length ∧ Bytes.getU16 b 0 = BINDING_SUCCESS ∧ Bytes.getU32 b 4 = COOKIE ∧
      HEADER + Bytes.getU16 b 2 = b.length then
    (findAttribute XOR_MAPPED_ADDRESS b.length (b.drop HEADER)).bind fun value =>
      (readAddress (Bytes.slice b 8 20) value).map fun a => (Bytes.slice b 8 20, a)
  else none

/-- A Binding Request: the header, the cookie, a transaction id, and attributes in whole words. -/
def IsRequest (buf tid : Bytes) : Prop :=
  ∃ attrs : Bytes, tid.length = 12 ∧ attrs.length < 65536 ∧ 4 ∣ attrs.length ∧
    buf = message BINDING_REQUEST attrs.length tid attrs

/-! ## The request -/

/-- The fields of a message, and what follows them. -/
structure Fields (b : Bytes) (type len : Nat) (tid body : Bytes) : Prop where
  length : b.length = HEADER + body.length
  type : Bytes.getU16 b 0 = type
  len : Bytes.getU16 b 2 = len
  cookie : Bytes.getU32 b 4 = COOKIE
  tid : Bytes.slice b 8 20 = tid
  body : b.drop HEADER = body

theorem fields_message {type len : Nat} {tid body : Bytes} (htype : type < 65536) (hlen : len < 65536) (htid : tid.length = 12) :
    Fields (message type len tid body) type len tid body where
  length := by
    simp [message, HEADER, htid]
    omega
  type := (Bytes.getU16_mid [] _ type rfl).trans (Nat.mod_eq_of_lt htype)
  len := (Bytes.getU16_mid (Bytes.u16be type) _ len (by simp)).trans (Nat.mod_eq_of_lt hlen)
  cookie := by
    rw [message, ← List.append_assoc]
    exact Bytes.getU32_mid (Bytes.u16be type ++ Bytes.u16be len) _ _ (by simp)
  tid := by
    rw [message, ← List.append_assoc, ← List.append_assoc]
    exact Bytes.slice_mid _ tid body (by simp) (by simp [htid])
  body := by
    rw [message, ← List.append_assoc, ← List.append_assoc, ← List.append_assoc]
    exact List.drop_left' (by simp [HEADER, htid])

theorem bindingRequestId_some {buf tid : Bytes} (h : bindingRequestId buf = some tid) : IsRequest buf tid := by
  rw [bindingRequestId] at h
  split_ifs at h with hshort htype hcookie hfit
  obtain ⟨hwords, htotal⟩ := not_or.mp hfit
  have hlen : 20 ≤ buf.length := Nat.not_lt.mp hshort
  have htotal : 20 + Bytes.getU16 buf 2 = buf.length := not_not.mp htotal
  have hattrs : (Bytes.slice buf 20 buf.length).length = Bytes.getU16 buf 2 := by
    rw [Bytes.length_slice buf hlen le_rfl]
    omega
  have hfield : ∀ i k n, i + k ≤ buf.length → Bytes.toNat (Bytes.slice buf i (i + k)) = n →
      Bytes.ofNat k n = Bytes.slice buf i (i + k) := by
    rintro i k n hik rfl
    exact Bytes.ofNat_toNat (by rw [Bytes.length_slice buf (by omega) hik]; omega)
  have hlt : Bytes.getU16 buf 2 < 65536 := by
    have hnum := congrArg Bytes.toNat (hfield 2 2 (Bytes.getU16 buf 2) (by omega) rfl)
    rw [Bytes.toNat_ofNat] at hnum
    have hmod : Bytes.getU16 buf 2 % 65536 = Bytes.getU16 buf 2 := hnum
    omega
  refine ⟨Bytes.slice buf 20 buf.length, ?_, hattrs ▸ hlt, ?_, ?_⟩
  · rw [← Option.some.inj h, Bytes.length_slice buf (by decide) hlen]
  · rw [hattrs]
    exact Nat.dvd_of_mod_eq_zero (not_not.mp hwords)
  · rw [message, hattrs, Bytes.u16be, hfield 0 2 _ (by omega) (not_not.mp htype), Bytes.u16be,
      hfield 2 2 (Bytes.getU16 buf 2) (by omega) rfl, Bytes.u32be, hfield 4 4 _ (by omega) (not_not.mp hcookie),
      ← Option.some.inj h, Bytes.slice_append_slice buf (by decide : 8 ≤ 20) hlen,
      Bytes.slice_append_slice buf (by decide : 4 ≤ 4 + 4) (by omega),
      Bytes.slice_append_slice buf (by decide : 2 ≤ 2 + 2) (by omega),
      Bytes.slice_append_slice buf (by decide : 0 ≤ 0 + 2) (by omega), Bytes.slice_all]

theorem bindingRequestId_of {buf tid : Bytes} (h : IsRequest buf tid) : bindingRequestId buf = some tid := by
  obtain ⟨attrs, htid, hlt, hwords, rfl⟩ := h
  have hf := @fields_message _ _ _ attrs (by decide : BINDING_REQUEST < 65536) hlt htid
  rw [bindingRequestId, hf.type, hf.len, hf.cookie, hf.tid, hf.length, if_neg (by omega), if_neg (by simp), if_neg (by simp),
    if_neg]
  rw [not_or, not_not, not_not]
  exact ⟨Nat.mod_eq_zero_of_dvd hwords, rfl⟩

/-! ## The answer is read -/

theorem xorBytes_twice {a m rest : Bytes} (h : a.length = m.length) :
    xorBytes (xorBytes a m ++ List.replicate rest.length 0) (m ++ rest) = a ++ rest := by
  have hlen : (xorBytes a m).length = m.length := by simp [xorBytes, h]
  have hback : xorBytes (xorBytes a m) m = a := by
    induction a generalizing m with
    | nil => simp [xorBytes]
    | cons x a ih =>
        cases m with
        | nil => cases h
        | cons y m =>
            have hlen' : a.length = m.length := Nat.succ.inj h
            have := ih hlen' (by simp [xorBytes, hlen'])
            simp only [xorBytes, List.zipWith_cons_cons] at this ⊢
            rw [this, UInt8.xor_assoc, UInt8.xor_self, UInt8.xor_zero]
  have hzero : xorBytes (List.replicate rest.length 0) rest = rest := by
    induction rest with
    | nil => rfl
    | cons x rest ih =>
        simp only [xorBytes] at ih
        simp [xorBytes, List.replicate_succ, ih]
  rw [xorBytes, List.zipWith_append hlen]
  exact congrArg₂ (· ++ ·) hback hzero

theorem toNat_append (a b : Bytes) : Bytes.toNat (a ++ b) = Bytes.toNat a * 256 ^ b.length + Bytes.toNat b := by
  induction b using List.reverseRecOn with
  | nil => simp [Bytes.toNat]
  | append_singleton b x ih =>
      rw [← List.append_assoc, Bytes.toNat_snoc, ih, Bytes.toNat_snoc, List.length_append, List.length_singleton, pow_succ]
      ring

theorem port_back (port : UInt16) : (port.toNat ^^^ portMask) % 2 ^ 16 ^^^ portMask = port.toNat := by
  have hlt : port.toNat ^^^ portMask < 2 ^ 16 := Nat.xor_lt_two_pow port.toNat_lt (by decide)
  rw [Nat.mod_eq_of_lt hlt, Nat.xor_assoc, Nat.xor_self, Nat.xor_zero]

theorem findAttribute_first {type : Nat} {value : Bytes} (htype : type < 65536) (hlen : value.length < 65536) (fuel : Nat) :
    findAttribute type (fuel + 1) (Bytes.u16be type ++ (Bytes.u16be value.length ++ value)) = some value := by
  have hlength : Bytes.getU16 (Bytes.u16be type ++ (Bytes.u16be value.length ++ value)) 2 = value.length :=
    (Bytes.getU16_mid (Bytes.u16be type) _ _ (by simp)).trans (Nat.mod_eq_of_lt hlen)
  have hfirst : Bytes.getU16 (Bytes.u16be type ++ (Bytes.u16be value.length ++ value)) 0 = type :=
    (Bytes.getU16_mid [] _ type rfl).trans (Nat.mod_eq_of_lt htype)
  have hvalue : Bytes.slice (Bytes.u16be type ++ (Bytes.u16be value.length ++ value)) 4 (4 + value.length) = value := by
    have := Bytes.slice_mid (Bytes.u16be type ++ Bytes.u16be value.length) value [] (i := 4) (j := 4 + value.length) (by simp) rfl
    simpa using this
  rw [findAttribute, hlength, hfirst, hvalue, if_neg, if_pos rfl]
  simp
  omega

section
variable {tid raw m rest : Bytes} {v6 : Bool} (hmask : maskOf v6 tid = m ++ rest) (hlen : raw.length = m.length)
  (htid : tid.length = 12)
include hmask hlen htid

theorem length_rest : raw.length + rest.length = if v6 then 16 else 4 := by
  have hall := congrArg List.length hmask
  rw [List.length_append, ← hlen] at hall
  rw [← hall, maskOf]
  cases v6 <;> simp [htid]

theorem addressValue_eq (port : UInt16) : addressValue v6 tid raw port =
    [0, if v6 then 2 else 1] ++ (Bytes.u16be (port.toNat ^^^ portMask) ++
      (xorBytes raw m ++ List.replicate rest.length 0)) := by
  have hx : xorBytes raw (m ++ rest) = xorBytes raw m := by
    rw [xorBytes, xorBytes, ← List.append_nil raw, List.zipWith_append (by simp [hlen])]
    simp
  have hfill : (if v6 then 16 else 4) - raw.length = rest.length := by
    have := length_rest hmask hlen htid
    omega
  rw [addressValue, hmask, hx, hfill]
  simp

theorem readAddress_value (port : UInt16) : readAddress tid (addressValue v6 tid raw port) =
    some (if v6 then .v6 else .v4, Bytes.toNat (raw ++ rest), port.toNat) := by
  have hall := length_rest hmask hlen htid
  rw [addressValue_eq hmask hlen htid]
  have hlength : ([0, if v6 then 2 else 1] ++ (Bytes.u16be (port.toNat ^^^ portMask) ++
      (xorBytes raw m ++ List.replicate rest.length 0))).length = 4 + if v6 then 16 else 4 := by
    simp [xorBytes, hlen]
    omega
  have hport : Bytes.getU16 ([0, if v6 then 2 else 1] ++ (Bytes.u16be (port.toNat ^^^ portMask) ++
      (xorBytes raw m ++ List.replicate rest.length 0))) 2 ^^^ portMask = port.toNat := by
    rw [Bytes.getU16_mid [0, if v6 then 2 else 1] _ _ (i := 2) rfl, port_back]
  have hdrop : ([0, if v6 then 2 else 1] ++ (Bytes.u16be (port.toNat ^^^ portMask) ++
      (xorBytes raw m ++ List.replicate rest.length 0))).drop 4 = xorBytes raw m ++ List.replicate rest.length 0 := by
    rw [← List.append_assoc]
    exact List.drop_left' (by simp)
  simp only [readAddress, hlength, hport, hdrop]
  cases v6 with
  | false => simp [hmask, xorBytes_twice hlen]
  | true => simp [hmask, xorBytes_twice hlen]

end

/-- The address of a source, as the socket gives it. -/
def sourceText (more : Bool) (v : Family) (n : Nat) (zone : Option Units) : Units :=
  match v with
  | .v4 => inetNtop more .v4 n
  | .v6 => inetNtop more .v6 n ++ zoneText zone

/-- `rinfo.family === 'IPv6'` -/
def isV6 : Family → Bool
  | .v4 => false
  | .v6 => true

/-- What the reader makes of an answer with the bytes `raw`: what is left of the mask follows them. -/
theorem readResponse_bytes {number : Units → Option ℚ} {tid raw m rest : Bytes} {text : Units} {port : UInt16} {v : Family}
    (htid : tid.length = 12) (hraw : ipBytes number text (isV6 v) = some raw) (hmask : maskOf (isV6 v) tid = m ++ rest)
    (hlen : raw.length = m.length) : ∃ out, bindingResponse number tid text port (isV6 v) = some out ∧
      readResponse out = some (tid, v, Bytes.toNat (raw ++ rest), port.toNat) := by
  refine ⟨_, by rw [bindingResponse, hraw]; rfl, ?_⟩
  have hvalue : (addressValue (isV6 v) tid raw port).length ≤ 20 := by
    have := length_rest hmask hlen htid
    rw [addressValue_eq hmask hlen htid]
    simp [xorBytes, hlen]
    split at this <;> omega
  have hf := @fields_message _ _ _ (Bytes.u16be XOR_MAPPED_ADDRESS ++ (Bytes.u16be (addressValue (isV6 v) tid raw port).length ++
    addressValue (isV6 v) tid raw port)) (by decide : BINDING_SUCCESS < 65536)
    (by omega : 4 + (addressValue (isV6 v) tid raw port).length < 65536) htid
  dsimp only
  rw [readResponse, hf.type, hf.cookie, hf.len, hf.tid, hf.body, hf.length, if_pos]
  · rw [show HEADER = 19 + 1 from rfl, Nat.add_right_comm, findAttribute_first (by decide) (by omega), Option.bind_some,
      readAddress_value hmask hlen htid]
    cases v <;> rfl
  · refine ⟨by omega, rfl, rfl, ?_⟩
    simp
    omega

/-! ## Every source -/

/-- A datagram is answered when it is a Binding Request, and the answer says its transaction id and where it came from. -/
def Answered (number : Units → Option ℚ) (more : Bool) (buf : Bytes) (v : Family) (n : Nat) (zone : Option Units)
    (port : UInt16) : Prop :=
  ((answer number buf (sourceText more v n zone) port (isV6 v)).isSome ↔ ∃ tid, IsRequest buf tid) ∧
    ∀ out, answer number buf (sourceText more v n zone) port (isV6 v) = some out →
      ∃ tid, IsRequest buf tid ∧ readResponse out = some (tid, v, n, port.toNat)

/-- The address that is read in place of a mapped one, where the transaction id makes up for the bytes left out. -/
def Coincides (n : Nat) (zone : Option Units) (tid : Bytes) : Prop :=
  zone = none ∧ n = 0xFFFF00000000 ∧ Bytes.toNat tid = 0xFFFF00000000

section
variable {number : Units → Option ℚ} {more : Bool} {buf tid : Bytes} {n : Nat} {zone : Option Units} {port : UInt16}

theorem answer_request (h : IsRequest buf tid) (text : Units) (v6 : Bool) :
    answer number buf text port v6 = bindingResponse number tid text port v6 := by
  rw [answer, bindingRequestId_of h, Option.bind_some]

theorem answer_none (h : ¬∃ tid, IsRequest buf tid) (text : Units) (v6 : Bool) : answer number buf text port v6 = none := by
  rw [answer]
  cases hid : bindingRequestId buf with
  | none => rfl
  | some tid => exact absurd ⟨tid, bindingRequestId_some hid⟩ h

theorem answered_iff {v : Family} (h : IsRequest buf tid) {out : Bytes} {m : Nat}
    (hout : bindingResponse number tid (sourceText more v n zone) port (isV6 v) = some out)
    (hread : readResponse out = some (tid, v, m, port.toNat)) :
    Answered number more buf v n zone port ↔ m = n := by
  rw [Answered, answer_request h, hout]
  constructor
  · rintro ⟨-, hall⟩
    obtain ⟨tid', -, hread'⟩ := hall out rfl
    rw [hread] at hread'
    simp only [Option.some.injEq, Prod.mk.injEq] at hread'
    exact hread'.2.2.1
  · rintro rfl
    refine ⟨iff_of_true rfl ⟨tid, h⟩, ?_⟩
    rintro _ ⟨⟩
    exact ⟨tid, h, hread⟩

theorem toNat_bytes {k n : Nat} (h : n < 256 ^ k) : Bytes.toNat (Bytes.ofNat k n) = n := by
  rw [Bytes.toNat_ofNat, Nat.mod_eq_of_lt h]

theorem answered_v4 (hnumber : Numerals number) (hn : n < 2 ^ 32) (h : IsRequest buf tid) :
    Answered number more buf .v4 n zone port := by
  have htid : tid.length = 12 := h.choose_spec.1
  have hraw : ipBytes number (sourceText more .v4 n zone) (isV6 .v4) = some (Bytes.u32be n) := ipBytes_v4 hnumber more n
  have hmask : maskOf (isV6 .v4) tid = Bytes.u32be COOKIE ++ [] := (List.append_nil _).symm
  obtain ⟨out, hout, hread⟩ := readResponse_bytes (v := .v4) htid hraw hmask (by simp)
  rw [List.append_nil, Bytes.u32be, toNat_bytes hn] at hread
  exact (answered_iff h hout hread).mpr rfl

theorem whole_mask (tid : Bytes) : maskOf (isV6 .v6) tid = Bytes.u32be COOKIE ++ tid ++ [] := (List.append_nil _).symm

theorem answered_plain (hn : n < 2 ^ 128) (hdotted : dotted more n = false) (h : IsRequest buf tid) :
    Answered number more buf .v6 n zone port := by
  have htid : tid.length = 12 := h.choose_spec.1
  have hraw : ipBytes number (sourceText more .v6 n zone) (isV6 .v6) = some (Bytes.ofNat 16 n) := ipBytes_plain hdotted zone
  obtain ⟨out, hout, hread⟩ := readResponse_bytes (v := .v6) htid hraw (whole_mask tid) (by simp [htid])
  rw [List.append_nil, toNat_bytes (by simpa using hn)] at hread
  exact (answered_iff h hout hread).mpr rfl

theorem answered_mapped (hnumber : Numerals number) (hhigh : n / 2 ^ 32 = 0xFFFF) (h : IsRequest buf tid) :
    Answered number more buf .v6 n none port ↔ Coincides n none tid := by
  have htid : tid.length = 12 := h.choose_spec.1
  have hraw : ipBytes number (sourceText more .v6 n none) (isV6 .v6) = some (Bytes.u32be n) := ipBytes_mapped hnumber hhigh
  have hmask : maskOf (isV6 .v6) tid = Bytes.u32be COOKIE ++ tid := rfl
  obtain ⟨out, hout, hread⟩ := readResponse_bytes (v := .v6) htid hraw hmask (by simp)
  have hvalue : Bytes.toNat (Bytes.u32be n ++ tid) = n % 2 ^ 32 * 2 ^ 96 + Bytes.toNat tid := by
    rw [toNat_append, Bytes.toNat_u32be, htid]
    norm_num
  rw [hvalue] at hread
  rw [answered_iff h hout hread, Coincides]
  constructor
  · intro heq
    exact ⟨rfl, by omega, by omega⟩
  · rintro ⟨-, hn, ht⟩
    omega

theorem answered_misread (hn : n < 2 ^ 128) (hdotted : dotted more n = true) (hmapped : n / 2 ^ 32 = 0xFFFF → zone ≠ none)
    (h : IsRequest buf tid) : ¬Answered number more buf .v6 n zone port := by
  have htid : tid.length = 12 := h.choose_spec.1
  obtain ⟨m, hm, hne, hbytes⟩ := ipBytes_misread hdotted zone hmapped
  have hraw : ipBytes number (sourceText more .v6 n zone) (isV6 .v6) = some (Bytes.ofNat 16 m) := hbytes
  obtain ⟨out, hout, hread⟩ := readResponse_bytes (v := .v6) htid hraw (whole_mask tid) (by simp [htid])
  rw [List.append_nil, toNat_bytes (by simpa using hm)] at hread
  exact fun hall => hne ((answered_iff h hout hread).mp hall)

end

/-- Every datagram from every source: an answer is right but where the last four bytes of the address are printed as those
of IPv4. -/
theorem stun_answered {number : Units → Option ℚ} (hnumber : Numerals number) (more : Bool) (buf : Bytes) {v : Family} {n : Nat}
    (hn : n < 2 ^ v.bits) (zone : Option Units) (port : UInt16) :
    Answered number more buf v n zone port ↔
      ∀ tid, IsRequest buf tid → v = .v6 → dotted more n = true → Coincides n zone tid := by
  by_cases h : ∃ tid, IsRequest buf tid
  · obtain ⟨tid, h⟩ := h
    have hone : ∀ tid', IsRequest buf tid' → tid' = tid := fun tid' h' =>
      Option.some.inj ((bindingRequestId_of h').symm.trans (bindingRequestId_of h))
    have hall : (∀ tid', IsRequest buf tid' → v = .v6 → dotted more n = true → Coincides n zone tid') ↔
        (v = .v6 → dotted more n = true → Coincides n zone tid) :=
      ⟨fun hc => hc tid h, fun hc tid' h' => hone tid' h' ▸ hc⟩
    rw [hall]
    cases v with
    | v4 => exact iff_of_true (answered_v4 hnumber hn h) (fun hv => by cases hv)
    | v6 =>
        cases hdotted : dotted more n with
        | false => exact iff_of_true (answered_plain hn hdotted h) (fun _ hd => by cases hd)
        | true =>
            simp only [forall_const]
            by_cases hmapped : n / 2 ^ 32 = 0xFFFF ∧ zone = none
            · obtain ⟨hhigh, rfl⟩ := hmapped
              exact answered_mapped hnumber hhigh h
            · refine iff_of_false (answered_misread hn hdotted (fun hhigh hz => hmapped ⟨hhigh, hz⟩) h) ?_
              rintro ⟨hz, rfl, -⟩
              exact hmapped ⟨by decide, hz⟩
  · refine iff_of_true ⟨?_, ?_⟩ (fun tid ht => absurd ⟨tid, ht⟩ h)
    · rw [answer_none h]
      exact iff_of_false (by simp) h
    · intro out hout
      rw [answer_none h] at hout
      cases hout

/-- `Number`, as far as it is decimal digits. -/
def sampleNumber (s : Units) : Option ℚ := if s ≠ [] ∧ s.all Geoip.isDigit then some (Geoip.readDigits 10 Geoip.decValue s) else none

theorem numerals_sample : Numerals sampleNumber where
  digits _ hne hall _ := if_pos ⟨hne, List.all_eq_true.mpr hall⟩

def sampleTid : Bytes := List.replicate 12 1

def sampleRequest : Bytes := message BINDING_REQUEST 0 sampleTid []

theorem sample_isRequest : IsRequest sampleRequest sampleTid := ⟨[], rfl, by decide, Nat.dvd_zero 4, rfl⟩

/-- From `192.0.2.1`. -/
theorem stun_answered_sample : Answered sampleNumber false sampleRequest .v4 0xC0000201 none 1234 :=
  (stun_answered numerals_sample false sampleRequest (by decide : 0xC0000201 < 2 ^ Family.v4.bits) none 1234).mpr
    fun _ _ hv => by cases hv

/-- From `::ffff:1.2.3.4`. -/
theorem stun_mapped_wrong : ¬ ∀ number : Units → Option ℚ, Numerals number → ∀ (more : Bool) (buf : Bytes) (v : Family) (n : Nat),
    n < 2 ^ v.bits → ∀ (zone : Option Units) (port : UInt16), Answered number more buf v n zone port := by
  intro h
  have hall := h sampleNumber numerals_sample false sampleRequest .v6 0xFFFF01020304 (by decide) none 1234
  obtain ⟨-, hn, -⟩ := (answered_mapped numerals_sample (by decide) sample_isRequest).mp hall
  exact absurd hn (by decide)

end EncedoChat.Stun
