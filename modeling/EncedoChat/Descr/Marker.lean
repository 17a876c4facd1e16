import EncedoChat.Descr.Text
import Mathlib.Logic.Function.Iterate

/-!
# The marker of a group

`buildMarker`, `parseMarker` and `resolveRoster` of `gmarker.ts`.
-/

namespace EncedoChat.Descr

open Units

def MARKER_PREFIX : Units := ascii "ETSEIC:chan1:"

def NAME_MAX : Nat := 16

def ROSTER_MAX : Nat := 10

def HINT_HEX : Nat := 8

/-- `:` -/
def COLON : UInt16 := 0x3A

/-! ## CRC-32 -/

def crcBit (c : UInt32) : UInt32 := if c &&& 1 ≠ 0 then (c >>> 1) ^^^ 0xEDB88320 else c >>> 1

/-- An entry of `CRC_TABLE`. -/
def crcEntry (i : UInt32) : UInt32 := crcBit^[8] i

def crc32 (bytes : Bytes) : UInt32 :=
  bytes.foldl (fun c b => crcEntry ((c ^^^ b.toUInt32) &&& 0xFF) ^^^ (c >>> 8)) 0xFFFFFFFF ^^^ 0xFFFFFFFF

example : crc32 (Utf8.encode "123456789".toList) = 0xCBF43926 := by decide +kernel

/-! ## Writing -/

structure MarkerFields where
  ownerKid : Units
  adminKid : Units
  name : Units
  hints : List Units
  crc : Nat

structure MarkerInput where
  owner : KeyRef
  admin : KeyRef
  members : Option (List KeyRef)
  name : Option Units

structure Built where
  descr : Units
  rosterIncluded : Bool
  nameIncluded : Bool

/-- The ids of a roster, when all of it can be written. -/
def usable (kids : List (Option Units)) : Option (List Units) :=
  if 0 < kids.length ∧ kids.length ≤ ROSTER_MAX then
    kids.mapM fun k => k.bind fun k => if isHexKid k 8 then some k else none
  else none

/-- Four bytes of each id, and the checksum of all of them. -/
def packed (list : List Units) : Bytes :=
  (list.flatMap fun k => unhex (k.take HINT_HEX)) ++ Bytes.u32be (crc32 (unhex list.flatten)).toNat

def blobOf (kids : List (Option Units)) : Units :=
  match usable kids with
  | some list => b64url (packed list)
  | none => []

/-- The eight digits a key is known by; `none` throws. -/
def Host.hintKid (host : Host) (r : KeyRef) : Option Units :=
  match host.kidOf r with
  | some kid => if isHexKid kid 8 then some (kid.take HINT_HEX) else r.pub.map fun p => (host.hemKid p).take HINT_HEX
  | none => r.pub.map fun p => (host.hemKid p).take HINT_HEX

def Host.hintOf (host : Host) (r : KeyRef) : Option Units := (host.hintKid r).map fun h => b64url (unhex h)

/-- Sixteen code points, without what would be read as a separator. -/
def wantedName (name : Option Units) : Units :=
  ((points ((name.getD []).map fun u => if u = COLON ∨ u = 0x2C then 0x20 else u)).take NAME_MAX).flatten

/-- `none` throws. -/
def Host.buildMarker (host : Host) (m : MarkerInput) : Option Built := do
  let _ ← host.kidOf m.admin
  let blob := blobOf ((m.members.getD []).map host.kidOf)
  let adminHint ← host.hintOf m.admin
  let ownerHint ← host.hintOf m.owner
  let wanted := wantedName m.name
  let head := MARKER_PREFIX ++ ownerHint ++ [COLON] ++ adminHint ++ [COLON]
  let name := sliceBytes wanted (DESCR_MAX - byteLen head - 1 - byteLen blob)
  let descr := head ++ name ++ [COLON] ++ blob
  if DESCR_MAX < byteLen descr then
    let name := sliceBytes wanted (DESCR_MAX - byteLen head - 1)
    return ⟨head ++ name ++ [COLON], false, name ≠ []⟩
  else return ⟨descr, blob ≠ [], name ≠ []⟩

/-! ## Reading -/

def hint (field : Units) : Option Units :=
  match unb64url field with
  | some raw => if raw.length = 4 then some (hex raw) else none
  | none => none

/-- The roster in a blob: the hints and the checksum. -/
def roster (blob : Bytes) : Option (List Units × Nat) :=
  if blob.length < 8 ∨ (blob.length - 4) % 4 ≠ 0 then none
  else
    let n := (blob.length - 4) / 4
    some ((List.range n).map fun i => hex (blob.slice (i * 4) (i * 4 + 4)), Bytes.getU32 blob (n * 4))

/-- The outer `none` throws. -/
def parseMarker (descr : Units) : Option (Option MarkerFields) :=
  if MARKER_PREFIX.isPrefixOf descr then
    match (descr.drop MARKER_PREFIX.length).splitOn COLON with
    | owner :: admin :: name :: part :: parts =>
      match hint owner, hint admin with
      | some ownerKid, some adminKid =>
        let blobS := [COLON].intercalate (part :: parts)
        if blobS = [] then some (some ⟨ownerKid, adminKid, name, [], 0⟩)
        else
          match unb64url blobS with
          | none => none
          | some blob => some ((roster blob).map fun r => ⟨ownerKid, adminKid, name, r.1, r.2⟩)
      | _, _ => some none
    | _ => some none
  else some none

/-! ## The roster among the keys that are seen -/

variable {T : Type} (ref : T → KeyRef)

/-- `byHint`: the first candidate with each hint. -/
def Host.byHint (host : Host) : List T → List (Units × T × Units) → List (Units × T × Units)
  | [], found => found
  | c :: cs, found =>
    match host.kidOf (ref c) with
    | some kid =>
      if isHexKid kid 8 ∧ (found.lookup (kid.take HINT_HEX)).isNone then
        Host.byHint host cs (found ++ [(kid.take HINT_HEX, c, kid)])
      else Host.byHint host cs found
    | none => Host.byHint host cs found

def Host.resolveRoster (host : Host) (m : MarkerFields) (candidates : List T) : Option (List T) :=
  if m.hints = [] then none
  else do
    let picked ← m.hints.mapM fun h => (host.byHint ref candidates []).lookup (host.toLowerCase h)
    if (crc32 (unhex (picked.map fun p => p.2).flatten)).toNat = m.crc then some (picked.map fun p => p.1) else none

/-! ## Key ids in hex -/

/-- A key id in hex, or a key to make one from. -/
def Identified (r : KeyRef) : Prop := (∃ k, r.kid = some k ∧ isHexKid k 8 = true) ∨ r.pub.isSome = true

structure HexKid (k : Units) : Prop where
  lower : ∀ u ∈ k, IsLowerHex u
  long : 8 ≤ k.length
  even : k.length % 2 = 0

section
variable {host : Host} {r : KeyRef} {k : Units}

theorem isHexKid_iff : isHexKid k 8 = true ↔ (∀ u ∈ k, (hexValue u).isSome = true) ∧ 8 ≤ k.length ∧ k.length % 2 = 0 := by
  simp only [isHexKid, Bool.and_eq_true, List.all_eq_true, decide_eq_true_iff]
  constructor
  · rintro ⟨⟨⟨-, hall⟩, hlen⟩, heven⟩
    exact ⟨hall, hlen, heven⟩
  · rintro ⟨hall, hlen, heven⟩
    refine ⟨⟨⟨?_, hall⟩, hlen⟩, heven⟩
    rintro rfl
    cases hlen

theorem hexKid_hemKid (hs : host.Sound) (p : Bytes) : HexKid (host.hemKid p) := by
  have hlen : (host.hemKid p).length = 32 := by
    rw [Host.hemKid, length_hex, List.length_take, hs.length_sha1]
    rfl
  exact ⟨fun u hu => mem_hex hu, by omega, by omega⟩

/-- An id that passes the check has no digit in upper case. -/
theorem hexKid_of_kidOf (hs : host.Sound) (h : host.kidOf r = some k) (hhex : isHexKid k 8 = true) : HexKid k := by
  obtain ⟨hall, hlen, heven⟩ := isHexKid_iff.mp hhex
  refine ⟨fun u hu => ?_, hlen, heven⟩
  rw [Host.kidOf] at h
  split at h
  · rename_i v s _
    have hno := hs.lower_upper (v :: s) u (Option.some.inj h ▸ hu)
    have hval := hall u hu
    simp only [hexValue] at hval
    split at hval
    · exact .inl ‹_›
    · split at hval
      · exact .inr ‹_›
      · split at hval
        · omega
        · cases hval
  · obtain ⟨p, -, rfl⟩ := Option.map_eq_some_iff.mp h
    exact (hexKid_hemKid hs p).lower u hu

theorem HexKid.take (h : HexKid k) : hex (unhex (k.take 8)) = k.take 8 := by
  have hlen := h.long
  apply hex_unhex
  · rw [List.length_take]
    omega
  · exact fun u hu => h.lower u (List.mem_of_mem_take hu)

theorem HexKid.length_take (h : HexKid k) : (unhex (k.take 8)).length = 4 := by
  have hlen := h.long
  rw [length_unhex, List.length_take]
  omega

/-- What is in lower case stays. -/
theorem HexKid.toLowerCase (hs : host.Sound) (h : HexKid k) : host.toLowerCase (k.take 8) = k.take 8 := by
  have hmap : ∀ u ∈ k.take 8, lowerUnit u = u := by
    intro u hu
    have hlow := h.lower u (List.mem_of_mem_take hu)
    rw [IsLowerHex] at hlow
    exact if_neg (by omega)
  rw [hs.lower_ascii]
  · rw [List.map_congr_left hmap, List.map_id']
  · intro u hu
    have hlow := h.lower u (List.mem_of_mem_take hu)
    rw [IsLowerHex] at hlow
    rw [Ascii, UInt16.lt_iff_toNat_lt]
    exact (by omega : u.toNat < 128)

theorem Host.hintKid_some (hs : host.Sound) {h : Units} (hh : host.hintKid r = some h) : ∃ k, HexKid k ∧ h = k.take 8 := by
  have hpub : ∀ {x : Units}, (r.pub.map fun p => (host.hemKid p).take HINT_HEX) = some x → ∃ k, HexKid k ∧ x = k.take 8 := by
    intro x hx
    obtain ⟨p, -, rfl⟩ := Option.map_eq_some_iff.mp hx
    exact ⟨_, hexKid_hemKid hs p, rfl⟩
  rw [Host.hintKid] at hh
  split at hh
  · rename_i kid hkid
    split at hh
    · exact ⟨kid, hexKid_of_kidOf hs hkid ‹_›, (Option.some.inj hh).symm⟩
    · exact hpub hh
  · exact hpub hh

theorem isSome_lowerUnit {u : UInt16} (h : (hexValue u).isSome = true) : (hexValue (lowerUnit u)).isSome = true := by
  have hlt := u.toNat_lt
  rw [lowerUnit]
  split
  · have hadd : (u + 32).toNat = u.toNat + 32 := by
      rw [UInt16.toNat_add]
      exact Nat.mod_eq_of_lt (by simp; omega)
    simp only [hexValue, hadd] at h ⊢
    split at h
    · omega
    · split at h
      · omega
      · rw [if_neg (by omega), if_pos]
        · rfl
        · split at h
          · omega
          · cases h
  · exact h

theorem Identified.hintKid (hs : host.Sound) (h : Identified r) :
    ∃ h, host.hintKid r = some h ∧ ∃ kid, host.kidOf r = some kid := by
  rcases h with ⟨k, hk, hhex⟩ | hpub
  · obtain ⟨hall, hlen, heven⟩ := isHexKid_iff.mp hhex
    have hascii : ∀ u ∈ k, Ascii u := by
      intro u hu
      have hval := hall u hu
      rw [Ascii, UInt16.lt_iff_toNat_lt]
      simp only [hexValue] at hval
      by_contra hbig
      have hbig' : 128 ≤ u.toNat := Nat.not_lt.mp hbig
      rw [if_neg (by omega), if_neg (by omega), if_neg (by omega)] at hval
      cases hval
    have hkid : host.kidOf r = some (k.map lowerUnit) := by
      cases k with
      | nil => cases hlen
      | cons u k => rw [Host.kidOf, hk, ← hs.lower_ascii _ hascii]
    have hlower : isHexKid (k.map lowerUnit) 8 = true := by
      rw [isHexKid_iff, List.length_map]
      refine ⟨fun u hu => ?_, hlen, heven⟩
      obtain ⟨v, hv, rfl⟩ := List.mem_map.mp hu
      exact isSome_lowerUnit (hall v hv)
    refine ⟨(k.map lowerUnit).take HINT_HEX, ?_, _, hkid⟩
    rw [Host.hintKid, hkid]
    exact if_pos hlower
  · obtain ⟨p, hp⟩ := Option.isSome_iff_exists.mp hpub
    obtain ⟨h, hh⟩ : ∃ h, host.hintKid r = some h := by
      rw [Host.hintKid, hp]
      split
      · split
        · exact ⟨_, rfl⟩
        · exact ⟨_, rfl⟩
      · exact ⟨_, rfl⟩
    refine ⟨h, hh, ?_⟩
    rw [Host.kidOf, hp]
    split
    · exact ⟨_, rfl⟩
    · exact ⟨_, rfl⟩

end

/-! ## A blob is read back -/

theorem usable_some {kids : List (Option Units)} {list : List Units} (h : usable kids = some list) :
    kids = list.map some ∧ 0 < list.length ∧ list.length ≤ 10 ∧ ∀ k ∈ list, isHexKid k 8 = true := by
  have hall : ∀ (kids : List (Option Units)) list,
      (kids.mapM fun k => k.bind fun k => if isHexKid k 8 then some k else none) = some list →
      kids = list.map some ∧ ∀ k ∈ list, isHexKid k 8 = true := by
    intro kids
    induction kids with
    | nil =>
        intro list hl
        cases hl
        simp
    | cons k kids ih =>
        intro list hl
        rw [List.mapM_cons, Option.bind_eq_bind, Option.bind_eq_some_iff] at hl
        obtain ⟨k', hk', hl⟩ := hl
        rw [Option.bind_eq_bind, Option.bind_eq_some_iff] at hl
        obtain ⟨list', hlist', hl⟩ := hl
        cases hl
        obtain ⟨rfl, hrest⟩ := ih list' hlist'
        rw [Option.bind_eq_some_iff] at hk'
        obtain ⟨k'', rfl, hk''⟩ := hk'
        split at hk''
        · cases hk''
          refine ⟨rfl, fun x hx => ?_⟩
          rcases List.mem_cons.mp hx with rfl | hx
          · assumption
          · exact hrest x hx
        · cases hk''
  rw [usable] at h
  split at h
  · rename_i hlen
    obtain ⟨rfl, hhex⟩ := hall kids list h
    rw [List.length_map] at hlen
    exact ⟨rfl, hlen.1, hlen.2, hhex⟩
  · cases h

/-- Blocks of four are cut out again. -/
theorem slices_flatten {hs : List Bytes} (h : ∀ x ∈ hs, x.length = 4) (t : Bytes) :
    (List.range hs.length).map (fun i => Bytes.slice (hs.flatten ++ t) (i * 4) (i * 4 + 4)) = hs := by
  induction hs with
  | nil => rfl
  | cons x hs ih =>
      have hx := h x List.mem_cons_self
      have hone : Bytes.slice (x ++ (hs.flatten ++ t)) 0 4 = x := Bytes.slice_mid [] _ _ rfl (by simpa using hx)
      have hnext : ∀ i, Bytes.slice (x ++ (hs.flatten ++ t)) ((i + 1) * 4) ((i + 1) * 4 + 4) =
          Bytes.slice (hs.flatten ++ t) (i * 4) (i * 4 + 4) := by
        intro i
        have hdrop : (i + 1) * 4 = x.length + i * 4 := by omega
        rw [Bytes.slice, Bytes.slice, hdrop, List.drop_length_add_append]
        congr 1
        omega
      rw [List.length_cons, List.range_succ_eq_map, List.map_cons, List.map_map, List.flatten_cons, List.append_assoc]
      rw [Nat.zero_mul, Nat.zero_add, hone]
      congr 1
      exact (List.map_congr_left fun i _ => hnext i).trans (ih fun y hy => h y (List.mem_cons_of_mem x hy))

theorem length_blocks {hs : List Bytes} (h : ∀ x ∈ hs, x.length = 4) : hs.flatten.length = hs.length * 4 := by
  rw [List.length_flatten, List.map_congr_left h, List.map_const', List.sum_replicate_nat]

/-- A roster of hints and a checksum is read as them. -/
theorem roster_blocks {hs : List Bytes} (h : ∀ x ∈ hs, x.length = 4) (hne : hs ≠ []) {crc : Bytes} (hcrc : crc.length = 4) :
    roster (hs.flatten ++ crc) = some (hs.map hex, Bytes.toNat crc) := by
  have hlen : (hs.flatten ++ crc).length = hs.length * 4 + 4 := by rw [List.length_append, length_blocks h, hcrc]
  have hpos := List.length_pos_of_ne_nil hne
  have hn : (hs.length * 4 + 4 - 4) / 4 = hs.length := by omega
  have hend : Bytes.slice (hs.flatten ++ crc) (hs.length * 4) (hs.length * 4 + 4) = crc := by
    have hmid := Bytes.slice_mid hs.flatten crc [] (length_blocks h) (congrArg (_ + ·) hcrc)
    rwa [List.append_nil] at hmid
  rw [roster, hlen, if_neg (by omega)]
  simp only [hn, Bytes.getU32, hend]
  congr 2
  have hslices := congrArg (List.map hex) (slices_flatten h crc)
  rwa [List.map_map] at hslices

theorem length_hints {list : List Units} (h : ∀ k ∈ list, HexKid k) :
    ∀ x ∈ list.map fun k => unhex (k.take HINT_HEX), x.length = 4 := by
  intro x hx
  obtain ⟨k, hk, rfl⟩ := List.mem_map.mp hx
  exact (h k hk).length_take

theorem length_packed {list : List Units} (h : ∀ k ∈ list, HexKid k) : (packed list).length = list.length * 4 + 4 := by
  rw [packed, List.length_append, Bytes.length_u32be, List.flatMap, length_blocks (length_hints h), List.length_map]

theorem roster_packed {list : List Units} (h : ∀ k ∈ list, HexKid k) (hne : 0 < list.length) :
    roster (packed list) = some (list.map (fun k => k.take HINT_HEX), (crc32 (unhex list.flatten)).toNat) := by
  have hhints : (list.map fun k => unhex (k.take HINT_HEX)).map hex = list.map fun k => k.take HINT_HEX := by
    rw [List.map_map]
    exact List.map_congr_left fun k hk => (h k hk).take
  have hcrc : Bytes.toNat (Bytes.u32be (crc32 (unhex list.flatten)).toNat) = (crc32 (unhex list.flatten)).toNat := by
    rw [Bytes.toNat_u32be]
    exact Nat.mod_eq_of_lt (UInt32.toNat_lt _)
  rw [packed, List.flatMap, roster_blocks (length_hints h) (by simpa using List.ne_nil_of_length_pos hne) (Bytes.length_u32be _),
    hhints, hcrc]

/-! ## A marker is read back -/

variable {host : Host} {m : MarkerInput} {oh ah : Units}

/-- The name, as much of it as fits beside a blob. -/
def cutName (name : Option Units) (blob : Units) : Units := sliceBytes (wantedName name) (DESCR_MAX - 27 - 1 - byteLen blob)

/-- What stands before the name. -/
def markerHead (oh ah : Units) : Units := MARKER_PREFIX ++ b64url (unhex oh) ++ [COLON] ++ b64url (unhex ah) ++ [COLON]

def Host.blob (host : Host) (m : MarkerInput) : Units := blobOf ((m.members.getD []).map host.kidOf)

theorem prefix_ascii : ∀ u ∈ MARKER_PREFIX, Ascii u := by simp [MARKER_PREFIX, ascii, Ascii]

theorem ascii_colon : Ascii COLON := (by decide : COLON < 0x80)

theorem ascii_head (oh ah : Units) : ∀ u ∈ markerHead oh ah, Ascii u := by
  intro u hu
  simp only [markerHead, List.mem_append, List.mem_singleton] at hu
  rcases hu with (((hu | hu) | hu) | hu) | hu
  · exact prefix_ascii u hu
  · exact (mem_b64url hu).1.ascii
  · rw [hu]
    exact ascii_colon
  · exact (mem_b64url hu).1.ascii
  · rw [hu]
    exact ascii_colon

theorem length_head (ho : (unhex oh).length = 4) (ha : (unhex ah).length = 4) : (markerHead oh ah).length = 27 := by
  have hprefix : MARKER_PREFIX.length = 13 := rfl
  simp only [markerHead, List.length_append, length_b64url, ho, ha, hprefix, List.length_singleton]

theorem byteLen_head (ho : (unhex oh).length = 4) (ha : (unhex ah).length = 4) : byteLen (markerHead oh ah) = 27 := by
  have hlen := byteLen_ascii (ascii_head oh ah) []
  rwa [List.append_nil, length_head ho ha] at hlen

theorem plain_blob {kids : List (Option Units)} {u : UInt16} (h : u ∈ blobOf kids) : Plain u ∧ u ≠ COLON := by
  rw [blobOf] at h
  split at h
  · exact ⟨(mem_b64url h).1, (mem_b64url h).2.1⟩
  · cases h

theorem length_blob (hs : host.Sound) (m : MarkerInput) : byteLen (host.blob m) ≤ 59 := by
  have hascii := byteLen_ascii (a := host.blob m) (fun u hu => (plain_blob hu).1.ascii) []
  rw [List.append_nil, byteLen_nil, Nat.add_zero] at hascii
  rw [hascii, Host.blob, blobOf]
  split
  · rename_i list hlist
    obtain ⟨-, -, hten, hhex⟩ := usable_some hlist
    have hkids : ∀ k ∈ list, HexKid k := by
      intro k hk
      obtain ⟨hkids, -⟩ := usable_some hlist
      have hmem : some k ∈ (m.members.getD []).map host.kidOf := hkids ▸ List.mem_map_of_mem hk
      obtain ⟨r, -, hr⟩ := List.mem_map.mp hmem
      exact hexKid_of_kidOf hs hr (hhex k hk)
    rw [length_b64url, length_packed hkids]
    omega
  · exact Nat.zero_le _

theorem byteLen_descr (ho : (unhex oh).length = 4) (ha : (unhex ah).length = 4) (name blob : Units)
    (h : ∀ u ∈ blob, Ascii u) : byteLen (markerHead oh ah ++ name ++ [COLON] ++ blob) = 27 + byteLen name + 1 + byteLen blob := by
  have hclean : Clean ([COLON] ++ blob) := clean_cons ascii_colon blob
  have hone : byteLen ([COLON] ++ blob) = 1 + byteLen blob :=
    byteLen_ascii (fun u hu => by rw [List.mem_singleton.mp hu]; exact ascii_colon) blob
  rw [List.append_assoc, List.append_assoc, byteLen_ascii (ascii_head oh ah), byteLen_clean hclean, hone, length_head ho ha]
  omega

/-- The blob of ten members leaves room for a name: nothing is dropped. -/
theorem buildMarker_eq (hs : host.Sound) {kid : Units} (hkid : host.kidOf m.admin = some kid)
    (ho : host.hintKid m.owner = some oh) (ha : host.hintKid m.admin = some ah) :
    host.buildMarker m = some ⟨markerHead oh ah ++ cutName m.name (host.blob m) ++ [COLON] ++ host.blob m,
      host.blob m ≠ [], cutName m.name (host.blob m) ≠ []⟩ ∧
      byteLen (markerHead oh ah ++ cutName m.name (host.blob m) ++ [COLON] ++ host.blob m) ≤ DESCR_MAX := by
  obtain ⟨ko, hko, rfl⟩ := Host.hintKid_some hs ho
  obtain ⟨ka, hka, rfl⟩ := Host.hintKid_some hs ha
  have hlen := byteLen_descr hko.length_take hka.length_take (cutName m.name (host.blob m)) (host.blob m)
    fun u hu => (plain_blob hu).1.ascii
  have hblob := length_blob hs m
  have hname := byteLen_sliceBytes (wantedName m.name) (DESCR_MAX - 27 - 1 - byteLen (host.blob m))
  have hmax : byteLen (markerHead (ko.take 8) (ka.take 8) ++ cutName m.name (host.blob m) ++ [COLON] ++ host.blob m) ≤
      DESCR_MAX := by
    rw [hlen, cutName]
    have : DESCR_MAX = 128 := rfl
    omega
  refine ⟨?_, hmax⟩
  have hhead := byteLen_head hko.length_take hka.length_take
  simp only [markerHead, cutName] at hhead hmax ⊢
  simp only [Host.buildMarker, hkid, Host.hintOf, ho, ha, Option.map_some, Option.bind_eq_bind, Option.bind_some, hhead]
  rw [Host.blob] at hmax ⊢
  rw [if_neg (Nat.not_lt.mpr hmax)]
  rfl

theorem hint_b64url {h : Units} (hlen : (unhex h).length = 4) (hhex : hex (unhex h) = h) : hint (b64url (unhex h)) = some h := by
  rw [hint, unb64url_b64url]
  dsimp only
  rw [if_pos hlen, hhex]

theorem colon_notMem_wanted (name : Option Units) : COLON ∉ wantedName name := by
  intro hmem
  rw [wantedName, List.mem_flatten] at hmem
  obtain ⟨p, hp, hu⟩ := hmem
  have hall : COLON ∈ (name.getD []).map fun u => if u = COLON ∨ u = 0x2C then 0x20 else u := by
    rw [← flatten_points (List.map _ _)]
    exact List.mem_flatten.mpr ⟨p, List.mem_of_mem_take hp, hu⟩
  obtain ⟨u, -, hu⟩ := List.mem_map.mp hall
  split at hu
  · cases hu
  · rename_i hno
    exact hno (.inl hu)

theorem splitOn_head {a : Units} (h : COLON ∉ a) (rest : Units) : (a ++ COLON :: rest).splitOn COLON = a :: rest.splitOn COLON := by
  apply List.splitOnP_append_cons_of_forall_mem
  · intro u hu
    rw [beq_eq_false_iff_ne]
    rintro rfl
    exact h hu
  · rfl

/-- The last field is all that follows the third colon. -/
theorem parse_parts {owner admin name : Units} (ho : COLON ∉ owner) (ha : COLON ∉ admin) (hn : COLON ∉ name) (blob : Units) :
    parseMarker (MARKER_PREFIX ++ owner ++ [COLON] ++ admin ++ [COLON] ++ name ++ [COLON] ++ blob) =
      match hint owner, hint admin with
      | some ownerKid, some adminKid =>
        if blob = [] then some (some ⟨ownerKid, adminKid, name, [], 0⟩)
        else match unb64url blob with
          | none => none
          | some b => some ((roster b).map fun r => ⟨ownerKid, adminKid, name, r.1, r.2⟩)
      | _, _ => some none := by
  have hdescr : MARKER_PREFIX ++ owner ++ [COLON] ++ admin ++ [COLON] ++ name ++ [COLON] ++ blob =
      MARKER_PREFIX ++ (owner ++ COLON :: (admin ++ COLON :: (name ++ COLON :: blob))) := by simp
  have hpre : MARKER_PREFIX.isPrefixOf (MARKER_PREFIX ++ (owner ++ COLON :: (admin ++ COLON :: (name ++ COLON :: blob)))) =
      true := List.isPrefixOf_iff_prefix.mpr (List.prefix_append _ _)
  obtain ⟨part, parts, hparts⟩ := List.exists_cons_of_ne_nil (List.splitOn_ne_nil COLON blob)
  have hback : [COLON].intercalate (part :: parts) = blob := by rw [← hparts, List.intercalate_splitOn]
  rw [hdescr, parseMarker, if_pos hpre, List.drop_left, splitOn_head ho, splitOn_head ha, splitOn_head hn, hparts]
  dsimp only
  rw [hback]

/-- The fields of a marker, with the roster its blob holds. -/
theorem parse_descr {ko ka name : Units} (hko : HexKid ko) (hka : HexKid ka) (hname : COLON ∉ name) (blob : Units) :
    parseMarker (markerHead (ko.take 8) (ka.take 8) ++ name ++ [COLON] ++ blob) =
      if blob = [] then some (some ⟨ko.take 8, ka.take 8, name, [], 0⟩)
      else match unb64url blob with
        | none => none
        | some b => some ((roster b).map fun r => ⟨ko.take 8, ka.take 8, name, r.1, r.2⟩) := by
  have hno : ∀ b, COLON ∉ b64url b := fun b hb => (mem_b64url hb).2.1 rfl
  rw [markerHead, parse_parts (hno _) (hno _) hname]
  simp only [hint_b64url hko.length_take hko.take, hint_b64url hka.length_take hka.take]

/-! ## The roster is found again -/

section
variable {T : Type} {ref : T → KeyRef} {candidates : List T}

/-- A candidate that can be told by a hint, with its id. -/
def Host.seen (host : Host) (ref : T → KeyRef) (h : Units) (c : T) : Option (T × Units) :=
  match host.kidOf (ref c) with
  | some kid => if isHexKid kid 8 ∧ kid.take HINT_HEX = h then some (c, kid) else none
  | none => none

theorem lookup_concat (found : List (Units × T × Units)) (h h' : Units) (v : T × Units) :
    (found ++ [(h', v)]).lookup h = (found.lookup h).or (if h' = h then some v else none) := by
  rw [List.lookup_append]
  congr 1
  by_cases heq : h' = h
  · simp [heq]
  · have hne : (h == h') = false := beq_eq_false_iff_ne.mpr fun hb => heq hb.symm
    rw [if_neg heq, List.lookup_cons, hne]
    rfl

/-- The map has the first candidate with each hint. -/
theorem lookup_byHint (h : Units) (found : List (Units × T × Units)) :
    (host.byHint ref candidates found).lookup h = (found.lookup h).or (candidates.findSome? (host.seen ref h)) := by
  induction candidates generalizing found with
  | nil => simp [Host.byHint]
  | cons c cs ih =>
      rw [Host.byHint, List.findSome?_cons, Host.seen]
      cases hkid : host.kidOf (ref c) with
      | none => exact ih found
      | some kid =>
          dsimp only
          by_cases hhex : isHexKid kid 8 = true
          · cases hfound : found.lookup (kid.take HINT_HEX) with
            | none =>
                rw [if_pos ⟨hhex, rfl⟩, ih, lookup_concat]
                by_cases heq : kid.take HINT_HEX = h
                · rw [if_pos heq, if_pos ⟨hhex, heq⟩, ← heq, hfound]
                  rfl
                · rw [if_neg heq, if_neg fun hc => heq hc.2, Option.or_none]
            | some v =>
                rw [if_neg (by simp), ih]
                by_cases heq : kid.take HINT_HEX = h
                · rw [← heq, hfound]
                  rfl
                · rw [if_neg fun hc => heq hc.2]
          · rw [if_neg fun hc => hhex hc.1, if_neg fun hc => hhex hc.1, ih]

/-- No two candidates are known by one hint. -/
def Host.Distinct (host : Host) (ref : T → KeyRef) (candidates : List T) : Prop :=
  ∀ c ∈ candidates, ∀ c' ∈ candidates, ∀ k k', host.kidOf (ref c) = some k → host.kidOf (ref c') = some k' →
    isHexKid k 8 = true → isHexKid k' 8 = true → k.take HINT_HEX = k'.take HINT_HEX → c = c'

theorem lookup_candidate (hd : host.Distinct ref candidates) {c : T} (hc : c ∈ candidates) {kid : Units}
    (hkid : host.kidOf (ref c) = some kid) (hhex : isHexKid kid 8 = true) :
    (host.byHint ref candidates []).lookup (kid.take HINT_HEX) = some (c, kid) := by
  have hself : host.seen ref (kid.take HINT_HEX) c = some (c, kid) := by
    rw [Host.seen, hkid]
    exact if_pos ⟨hhex, rfl⟩
  rw [lookup_byHint, List.lookup_nil, Option.none_or]
  cases hfind : candidates.findSome? (host.seen ref (kid.take HINT_HEX)) with
  | none =>
      rw [List.findSome?_eq_none_iff.mp hfind c hc] at hself
      cases hself
  | some v =>
      obtain ⟨c', hc', hv⟩ := List.exists_of_findSome?_eq_some hfind
      rw [Host.seen] at hv
      split at hv
      · rename_i kid' hkid'
        split at hv
        · rename_i hok
          obtain rfl := hd c hc c' hc' kid kid' hkid hkid' hhex hok.1 hok.2.symm
          rw [hkid] at hkid'
          cases hkid'
          exact hv.symm
        · cases hv
      · cases hv

theorem picks (hs : host.Sound) (hd : host.Distinct ref candidates) {list : List Units} {ms : List T}
    (hkids : ms.map (fun c => host.kidOf (ref c)) = list.map some) (hms : ∀ c ∈ ms, c ∈ candidates)
    (hhex : ∀ k ∈ list, isHexKid k 8 = true) : ∃ picked : List (T × Units), picked.map Prod.fst = ms ∧
      picked.map Prod.snd = list ∧ (list.map fun k => k.take HINT_HEX).mapM
        (fun h => (host.byHint ref candidates []).lookup (host.toLowerCase h)) = some picked := by
  induction ms generalizing list with
  | nil =>
      cases list with
      | nil => exact ⟨[], rfl, rfl, rfl⟩
      | cons k list => cases hkids
  | cons c ms ih =>
      cases list with
      | nil => cases hkids
      | cons k list =>
          rw [List.map_cons, List.map_cons, List.cons.injEq] at hkids
          obtain ⟨picked, hfst, hsnd, hall⟩ := ih hkids.2 (fun x hx => hms x (List.mem_cons_of_mem c hx))
            fun x hx => hhex x (List.mem_cons_of_mem k hx)
          have hk := hhex k List.mem_cons_self
          have hlower : host.toLowerCase (k.take HINT_HEX) = k.take HINT_HEX :=
            (hexKid_of_kidOf hs hkids.1 hk).toLowerCase hs
          refine ⟨(c, k) :: picked, by rw [List.map_cons, hfst], by rw [List.map_cons, hsnd], ?_⟩
          rw [List.map_cons, List.mapM_cons, hlower, lookup_candidate hd (hms c List.mem_cons_self) hkids.1 hk, hall]
          rfl

/-- The members are resolved, in their order. -/
theorem resolve_members (hs : host.Sound) (hd : host.Distinct ref candidates) {list : List Units} {ms : List T}
    (hkids : ms.map (fun c => host.kidOf (ref c)) = list.map some) (hms : ∀ c ∈ ms, c ∈ candidates)
    (hhex : ∀ k ∈ list, isHexKid k 8 = true) (hne : list ≠ []) {f : MarkerFields}
    (hhints : f.hints = list.map fun k => k.take HINT_HEX) (hcrc : f.crc = (crc32 (unhex list.flatten)).toNat) :
    host.resolveRoster ref f candidates = some ms := by
  obtain ⟨picked, hfst, hsnd, hall⟩ := picks hs hd hkids hms hhex
  have hsnd' : (picked.map fun p => p.2) = list := hsnd
  have hfst' : (picked.map fun p => p.1) = ms := hfst
  rw [Host.resolveRoster, hhints, if_neg (by simpa using hne), hall, Option.bind_eq_bind, Option.bind_some, hsnd', hcrc,
    if_pos rfl, hfst']

end

/-- Lower case for ASCII, and a digest that is not asked. -/
def asciiHost : Host := ⟨fun s => s.map lowerUnit, fun _ => List.replicate 20 0⟩

theorem asciiHost_sound : asciiHost.Sound where
  lower_ascii _ _ := rfl
  lower_upper s u hu := by
    obtain ⟨v, -, rfl⟩ := List.mem_map.mp hu
    rw [lowerUnit]
    split
    · have hadd : (v + 32).toNat = v.toNat + 32 := by
        rw [UInt16.toNat_add]
        exact Nat.mod_eq_of_lt (by simp; omega)
      omega
    · assumption
  length_sha1 _ := rfl

theorem identified_hex {k : Units} (h : isHexKid k 8 = true) : Identified ⟨some k, none⟩ := .inl ⟨k, rfl, h⟩

end EncedoChat.Descr
