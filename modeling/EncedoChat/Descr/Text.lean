import EncedoChat.Lib.Base64
import EncedoChat.Lib.Characters

/-!
# What the records of a device are written with

The budget in bytes, the key ids and base64url of `descr.ts`.
-/

namespace EncedoChat.Descr

open Units

def DESCR_MAX : Nat := 128

/-! ## Text budget -/

def byteLen (s : Units) : Nat := (utf8 s).length

/-- The loop of `sliceBytes`. -/
def fill (max : Nat) : Units → List Units → Units
  | out, [] => out
  | out, ch :: rest => if max < byteLen (out ++ ch) then out else fill max (out ++ ch) rest

def sliceBytes (s : Units) (max : Nat) : Units := if byteLen s ≤ max then s else fill max [] (points s)

/-- What a device gives back. -/
inductive Raw where
  | text (s : Units)
  | record (bs : Bytes)

def Raw.string : Raw → Units
  | .text s => s
  | .record bs => ofChars (Utf8.decode bs)

/-- Up to the first NUL. -/
def descrText (raw : Option Raw) : Option Units := raw.map fun r => r.string.takeWhile (· ≠ 0)

/-! ## Key ids -/

structure KeyRef where
  kid : Option Units
  pub : Option Bytes

/-- `toLowerCase` and the digest of the platform -/
structure Host where
  toLowerCase : Units → Units
  sha1 : Bytes → Bytes

/-- `[0-9a-fA-F]` -/
def hexValue (u : UInt16) : Option Nat :=
  let n := u.toNat
  if 48 ≤ n ∧ n ≤ 57 then some (n - 48)
  else if 97 ≤ n ∧ n ≤ 102 then some (n - 87)
  else if 65 ≤ n ∧ n ≤ 70 then some (n - 55)
  else none

def isHexKid (k : Units) (minHex : Nat) : Bool :=
  k ≠ [] && k.all (fun u => (hexValue u).isSome) && minHex ≤ k.length && k.length % 2 = 0

/-- What is no digit does not get here: each caller has asked `isHexKid`. -/
def unhex : Units → Bytes
  | a :: b :: s => UInt8.ofNat ((hexValue a).getD 0 * 16 + (hexValue b).getD 0) :: unhex s
  | _ => []

def hex (b : Bytes) : Units := b.flatMap fun x => [hexDigit (x.toNat / 16), hexDigit (x.toNat % 16)]

/-- The trailing `=` go. -/
def b64url (b : Bytes) : Units :=
  ((Base64.btoa b).map fun u => if u = 0x2B then 0x2D else if u = 0x2F then 0x5F else u).rdropWhile (· = Base64.PAD)

/-- `none` throws. -/
def unb64url (s : Units) : Option Bytes :=
  let p := s.map fun u => if u = 0x2D then 0x2B else if u = 0x5F then 0x2F else u
  Base64.atob (p ++ Base64.padding p.length)

def Host.hemKid (host : Host) (pub : Bytes) : Units := hex ((host.sha1 pub).take 16)

def Host.kidOf (host : Host) (r : KeyRef) : Option Units :=
  match r.kid with
  | some (u :: k) => some (host.toLowerCase (u :: k))
  | _ => r.pub.map host.hemKid

/-- `[0-9a-f]` -/
def IsLowerHex (u : UInt16) : Prop := 48 ≤ u.toNat ∧ u.toNat ≤ 57 ∨ 97 ≤ u.toNat ∧ u.toNat ≤ 102

/-- An ASCII letter in lower case. -/
def lowerUnit (u : UInt16) : UInt16 := if 65 ≤ u.toNat ∧ u.toNat ≤ 90 then u + 32 else u

structure Host.Sound (host : Host) : Prop where
  lower_ascii : ∀ s, (∀ u ∈ s, Ascii u) → host.toLowerCase s = s.map lowerUnit
  lower_upper : ∀ s, ∀ u ∈ host.toLowerCase s, ¬(65 ≤ u.toNat ∧ u.toNat ≤ 90)
  length_sha1 : ∀ b, (host.sha1 b).length = 20

/-! ## What a cut leaves -/

variable {s : Units} {max : Nat}

theorem byteLen_fill {out : Units} (h : byteLen out ≤ max) (ps : List Units) : byteLen (fill max out ps) ≤ max := by
  fun_induction fill max out ps with
  | case1 => exact h
  | case2 => exact h
  | case3 out ch rest hfits ih => exact ih (Nat.le_of_not_lt hfits)

@[simp] theorem byteLen_nil : byteLen [] = 0 := rfl

theorem byteLen_sliceBytes (s : Units) (max : Nat) : byteLen (sliceBytes s max) ≤ max := by
  rw [sliceBytes]
  split
  · assumption
  · exact byteLen_fill (Nat.zero_le _) _

theorem mem_fill {out : Units} {ps : List Units} {u : UInt16} (h : u ∈ fill max out ps) : u ∈ out ∨ u ∈ ps.flatten := by
  fun_induction fill max out ps with
  | case1 => exact .inl h
  | case2 => exact .inl h
  | case3 out ch rest hfits ih =>
      rw [List.flatten_cons, List.mem_append, ← or_assoc, ← List.mem_append]
      exact ih h

theorem mem_sliceBytes {u : UInt16} (h : u ∈ sliceBytes s max) : u ∈ s := by
  rw [sliceBytes] at h
  split at h
  · exact h
  · rcases mem_fill h with h | h
    · cases h
    · rwa [flatten_points] at h

/-- ASCII characters take a byte each, whatever follows them. -/
theorem byteLen_ascii {a : Units} (h : ∀ u ∈ a, Ascii u) (b : Units) : byteLen (a ++ b) = a.length + byteLen b := by
  induction a with
  | nil => simp
  | cons u a ih =>
      have hu := length_utf8_cons (h u List.mem_cons_self) (a ++ b)
      rw [List.cons_append, byteLen, hu, ← byteLen, ih fun v hv => h v (List.mem_cons_of_mem u hv), List.length_cons]
      omega

theorem byteLen_clean {a b : Units} (h : b.Clean) : byteLen (a ++ b) = byteLen a + byteLen b := length_utf8_append h

/-! ## Hexadecimal digits -/

theorem hexValue_hexDigit : ∀ n < 16, hexValue (hexDigit n) = some n := by decide

theorem isLowerHex_hexDigit : ∀ n < 16, 48 ≤ (hexDigit n).toNat ∧ (hexDigit n).toNat ≤ 57 ∨
    97 ≤ (hexDigit n).toNat ∧ (hexDigit n).toNat ≤ 102 := by decide

@[simp] theorem length_hex (b : Bytes) : (hex b).length = 2 * b.length := by
  induction b with
  | nil => rfl
  | cons x b ih =>
      rw [hex, List.flatMap_cons, List.length_append, ← hex, ih]
      simp
      omega

theorem hex_cons (x : UInt8) (b : Bytes) : hex (x :: b) = hexDigit (x.toNat / 16) :: hexDigit (x.toNat % 16) :: hex b := rfl

theorem mem_hex {b : Bytes} {u : UInt16} (h : u ∈ hex b) : IsLowerHex u := by
  obtain ⟨x, -, hu⟩ := List.mem_flatMap.mp h
  have := x.toNat_lt
  simp only [List.mem_cons, List.not_mem_nil, or_false] at hu
  rcases hu with rfl | rfl
  · exact isLowerHex_hexDigit _ (by omega)
  · exact isLowerHex_hexDigit _ (by omega)

theorem unhex_hex (b : Bytes) : unhex (hex b) = b := by
  induction b with
  | nil => rfl
  | cons x b ih =>
      have := x.toNat_lt
      rw [hex_cons, unhex, ih, hexValue_hexDigit _ (by omega), hexValue_hexDigit _ (by omega), Option.getD_some,
        Option.getD_some, Base64.ofNat_eq (x := x) (by omega)]

theorem hexValue_of_lower {u : UInt16} (h : IsLowerHex u) : ∃ n < 16, hexValue u = some n ∧ hexDigit n = u := by
  have hu : UInt16.ofNat u.toNat = u := UInt16.ofNat_toNat
  rcases h with ⟨hl, hr⟩ | ⟨hl, hr⟩
  · refine ⟨u.toNat - 48, by omega, if_pos ⟨hl, hr⟩, ?_⟩
    rw [hexDigit, if_pos (by omega), Nat.add_sub_cancel' hl, hu]
  · refine ⟨u.toNat - 87, by omega, ?_, ?_⟩
    · simp only [hexValue]
      rw [if_neg (by omega), if_pos ⟨hl, hr⟩]
    · rw [hexDigit, if_neg (by omega), Nat.add_sub_cancel' (by omega), hu]

/-- Pairs of digits in lower case are written back. -/
theorem hex_unhex (s : Units) (heven : s.length % 2 = 0) (h : ∀ u ∈ s, IsLowerHex u) : hex (unhex s) = s := by
  fun_induction unhex s with
  | case1 a b s ih =>
      obtain ⟨m, hm, hma, rfl⟩ := hexValue_of_lower (h a (by simp))
      obtain ⟨n, hn, hnb, rfl⟩ := hexValue_of_lower (h b (by simp))
      have hval : (UInt8.ofNat (m * 16 + n)).toNat = m * 16 + n := UInt8.toNat_ofNat_of_lt' (by omega : _ < 256)
      rw [List.length_cons, List.length_cons] at heven
      rw [hma, hnb, Option.getD_some, Option.getD_some, hex_cons, hval,
        ih (by omega) fun u hu => h u (List.mem_cons_of_mem _ (List.mem_cons_of_mem _ hu))]
      congr 2
      · omega
      · congr 1
        omega
  | case2 s hno =>
      cases s with
      | nil => rfl
      | cons a s =>
          cases s with
          | nil => cases heven
          | cons b s => exact absurd rfl (hno a b s)

@[simp] theorem length_unhex (s : Units) : (unhex s).length = s.length / 2 := by
  fun_induction unhex s with
  | case1 a b s ih =>
      simp only [List.length_cons, ih]
      omega
  | case2 s hno =>
      cases s with
      | nil => rfl
      | cons a s =>
          cases s with
          | nil => simp
          | cons b s => exact absurd rfl (hno a b s)

/-! ## base64url -/

/-- A digit in the alphabet of a URL. -/
def urlDigit (n : Nat) : UInt16 :=
  if Base64.digit n = 0x2B then 0x2D else if Base64.digit n = 0x2F then 0x5F else Base64.digit n

theorem urlDigit_back : ∀ n < 64, (if urlDigit n = 0x2D then 0x2B else if urlDigit n = 0x5F then 0x2F else urlDigit n) =
    Base64.digit n := by decide

theorem urlDigit_plain : ∀ n < 64, Plain (urlDigit n) ∧ urlDigit n ≠ 0x3D ∧ urlDigit n ≠ 0x3A ∧ urlDigit n ≠ 0x2C ∧
    urlDigit n ≠ 0 := by decide

theorem b64url_eq (b : Bytes) : b64url b = (Base64.sextets b).map urlDigit := by
  have hpad : ∀ n, (Base64.padding n).map (fun u => if u = 0x2B then 0x2D else if u = 0x2F then 0x5F else u) =
      Base64.padding n := by
    intro n
    rw [Base64.padding, List.map_replicate]
    rfl
  rw [b64url, Base64.btoa, List.map_append, hpad, List.map_map, Base64.padding]
  have hdrop : ∀ (ds : Units) k, (∀ u ∈ ds, u ≠ Base64.PAD) →
      (ds ++ List.replicate k Base64.PAD).rdropWhile (· = Base64.PAD) = ds := by
    intro ds k hds
    induction k with
    | zero =>
        rw [List.replicate_zero, List.append_nil, List.rdropWhile_eq_self_iff]
        intro hne
        simpa using hds _ (List.getLast_mem hne)
    | succ k ih =>
        rw [List.replicate_succ', ← List.append_assoc, List.rdropWhile_concat_pos _ _ _ (by simp)]
        exact ih
  apply hdrop
  intro u hu
  obtain ⟨n, hn, rfl⟩ := List.mem_map.mp hu
  exact (urlDigit_plain n (Base64.sextets_lt hn)).2.1

theorem mem_b64url {b : Bytes} {u : UInt16} (h : u ∈ b64url b) : Plain u ∧ u ≠ 0x3A ∧ u ≠ 0x2C ∧ u ≠ 0 := by
  rw [b64url_eq] at h
  obtain ⟨n, hn, rfl⟩ := List.mem_map.mp h
  have hp := urlDigit_plain n (Base64.sextets_lt hn)
  exact ⟨hp.1, hp.2.2⟩

theorem length_b64url (b : Bytes) : (b64url b).length = (b.length * 4 + 2) / 3 := by
  rw [b64url_eq, List.length_map, Base64.length_sextets]

/-- What is written is read back. -/
theorem unb64url_b64url (b : Bytes) : unb64url (b64url b) = some b := by
  have hback : (b64url b).map (fun u => if u = 0x2D then 0x2B else if u = 0x5F then 0x2F else u) =
      (Base64.sextets b).map Base64.digit := by
    rw [b64url_eq, List.map_map]
    apply List.map_congr_left
    intro n hn
    exact urlDigit_back n (Base64.sextets_lt hn)
  have hbtoa := Base64.atob_btoa b
  rw [Base64.btoa] at hbtoa
  rw [unb64url, hback]
  exact hbtoa

theorem b64url_inj {a b : Bytes} (h : b64url a = b64url b) : a = b := by
  have hab := unb64url_b64url a
  rw [h, unb64url_b64url] at hab
  exact (Option.some.inj hab).symm

end EncedoChat.Descr
