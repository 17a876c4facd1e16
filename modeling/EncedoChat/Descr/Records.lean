import EncedoChat.Descr.Text

/-!
# The records of an identity and of its contacts

Built, read as a string or as the padded bytes of the device, and searched for by the owner.
-/

namespace EncedoChat.Descr

open Units

def SELF_PREFIX : Units := ascii "ETSEIC:self1,"

def PEER_PREFIX : Units := ascii "ETSEIC:peer1,"

def SELF_NAME_MAX : Nat := DESCR_MAX - byteLen SELF_PREFIX

def PEER_NAME_MAX : Nat := DESCR_MAX - byteLen PEER_PREFIX - 22 - 1

def kidToField (kidHex : Units) : Option Units :=
  if isHexKid kidHex 32 && kidHex.length = 32 then some (b64url (unhex kidHex)) else none

def kidFromField (field : Units) : Option Units :=
  match unb64url field with
  | some raw => if raw.length = 16 then some (hex raw) else none
  | none => none

def buildSelfDescr (handle : Units) : Units := SELF_PREFIX ++ sliceBytes handle SELF_NAME_MAX

def parseSelfDescr (raw : Option Raw) : Option Units :=
  match descrText raw with
  | some s => if SELF_PREFIX.isPrefixOf s then some (s.drop SELF_PREFIX.length) else none
  | none => none

def buildPeerDescr (ownerKidHex name : Units) : Option Units :=
  match kidToField ownerKidHex with
  | some owner =>
    let head := PEER_PREFIX ++ owner ++ [0x2C]
    some (head ++ sliceBytes name (DESCR_MAX - byteLen head))
  | none => none

/-- The owner and the name. -/
def parsePeerDescr (raw : Option Raw) : Option (Units × Units) :=
  match descrText raw with
  | some s =>
    if PEER_PREFIX.isPrefixOf s then
      let rest := s.drop PEER_PREFIX.length
      let comma := rest.idxOf 0x2C
      if comma < rest.length then
        match kidFromField (rest.take comma) with
        | some ownerKid => some (ownerKid, rest.drop (comma + 1))
        | none => none
      else none
    else none
  | none => none

def peerSearchPrefix (ownerKidHex : Option Units) : Units :=
  match ownerKidHex with
  | some (u :: k) =>
    match kidToField (u :: k) with
    | some owner => PEER_PREFIX ++ owner ++ [0x2C]
    | none => PEER_PREFIX
  | _ => PEER_PREFIX

/-- The record of the device: 128 bytes, with NULs after the text. -/
def padRecord (s : Units) : Bytes := utf8 s ++ List.replicate (DESCR_MAX - byteLen s) 0

/-- The hex digits of sixteen bytes. -/
def IsKid (k : Units) : Prop := isHexKid k 32 = true ∧ k.length = 32

/-- Both ways in which a record comes back. -/
def Returned (descr : Units) (raw : Raw) : Prop := raw = .text descr ∨ raw = .record (padRecord descr)

/-! ## The longest name that fits -/

theorem Longest.of_next {max : Nat} {out rest : List Char} {c : Char} (hfits : (Utf8.encode out).length ≤ max)
    (hnext : max < (Utf8.encode (out ++ [c])).length) : Utf8.Longest max (out ++ c :: rest) out where
  isPrefix := List.prefix_append _ _
  fits := hfits
  longest := by
    intro q hq hlen
    by_contra hno
    have hout : out <+: out ++ c :: rest := List.prefix_append _ _
    have hmore : out ++ [c] <+: out ++ c :: rest := ⟨rest, by simp⟩
    rcases List.prefix_or_prefix_of_prefix hq hmore with hshort | ⟨t, rfl⟩
    · rcases List.prefix_concat_iff.mp hshort with rfl | hshort
      · omega
      · exact hno hshort
    · rw [Utf8.encode_append, List.length_append] at hlen
      omega

theorem fill_ofChars {max : Nat} (cs : List Char) {out : List Char} (h : (Utf8.encode out).length ≤ max) :
    ∃ p, fill max (ofChars out) (cs.map ofChar) = ofChars p ∧ Utf8.Longest max (out ++ cs) p := by
  induction cs generalizing out with
  | nil => exact ⟨out, rfl, by rw [List.append_nil]; exact .self h⟩
  | cons c cs ih =>
      have hadd : ofChars out ++ ofChar c = ofChars (out ++ [c]) := by
        rw [ofChars_append]
        simp [ofChars]
      rw [List.map_cons, fill, hadd, byteLen, utf8_ofChars]
      by_cases hnext : max < (Utf8.encode (out ++ [c])).length
      · rw [if_pos hnext]
        exact ⟨out, rfl, Longest.of_next h hnext⟩
      · rw [if_neg hnext]
        obtain ⟨p, hp, hlong⟩ := ih (Nat.not_lt.mp hnext)
        rw [List.append_assoc] at hlong
        exact ⟨p, hp, hlong⟩

/-- A well-formed name is cut between characters, as late as the budget lets it. -/
theorem sliceBytes_ofChars (cs : List Char) (max : Nat) :
    ∃ p, sliceBytes (ofChars cs) max = ofChars p ∧ Utf8.Longest max cs p := by
  rw [sliceBytes, byteLen, utf8_ofChars]
  split
  · exact ⟨cs, rfl, .self ‹_›⟩
  · have hnil : (Utf8.encode []).length ≤ max := Nat.zero_le _
    rw [points_ofChars]
    exact fill_ofChars cs hnil

theorem sliceBytes_self {s : Units} {max : Nat} (h : byteLen s ≤ max) : sliceBytes s max = s := if_pos h

theorem byteLen_ofChars (cs : List Char) : byteLen (ofChars cs) = (Utf8.encode cs).length := by
  rw [byteLen, utf8_ofChars]

/-! ## What comes back from the device -/

/-- ASCII units are characters. -/
theorem ofChars_ascii {a : Units} (h : ∀ u ∈ a, Ascii u) : ofChars (a.map fun u => Char.ofNat u.toNat) = a := by
  induction a with
  | nil => rfl
  | cons u a ih =>
      have hlt : u.toNat < 0x80 := UInt16.lt_iff_toNat_lt.mp (h u List.mem_cons_self)
      have hchar : (Char.ofNat u.toNat).toNat = u.toNat := by
        have hvalid : u.toNat.isValidChar := .inl (by omega)
        rw [Char.ofNat, dif_pos hvalid]
        rfl
      rw [List.map_cons, ofChars, List.flatMap_cons, ← ofChars, ih fun v hv => h v (List.mem_cons_of_mem u hv), ofChar,
        hchar, if_pos (by omega), UInt16.ofNat_toNat]
      rfl

theorem zero_notMem_ofChars {cs : List Char} (h : '\x00' ∉ cs) : 0 ∉ ofChars cs := by
  intro hmem
  obtain ⟨c, hc, hu⟩ := List.mem_flatMap.mp hmem
  rcases ofChar_cases c with ⟨u, hone, hn, -, -⟩ | ⟨hi, lo, hpair, -, -, -, hh, hl⟩
  · rw [hone, List.mem_singleton] at hu
    subst hu
    have hzero : c = '\x00' := by
      rw [← Char.ofNat_toNat c, ← hn]
      rfl
    exact h (hzero ▸ hc)
  · rw [hpair] at hu
    simp only [List.mem_cons, List.not_mem_nil, or_false] at hu
    rcases hu with rfl | rfl
    · simp at hh
      omega
    · simp at hl
      omega

theorem ofChars_nuls (n : Nat) : ofChars (List.replicate n '\x00') = List.replicate n 0 := by
  induction n with
  | zero => rfl
  | succ n ih =>
      rw [List.replicate_succ, ofChars, List.flatMap_cons, ← ofChars, ih]
      rfl

theorem encode_nuls (n : Nat) : Utf8.encode (List.replicate n '\x00') = List.replicate n 0 := by
  induction n with
  | zero => rfl
  | succ n ih =>
      rw [List.replicate_succ, Utf8.encode, List.flatMap_cons, ← Utf8.encode, ih]
      rfl

theorem takeWhile_nuls {s : Units} (h : 0 ∉ s) (n : Nat) : (s ++ List.replicate n 0).takeWhile (· ≠ 0) = s := by
  have hs : ∀ u ∈ s, (decide (u ≠ 0)) = true := by
    rintro u hu
    rw [decide_eq_true_iff]
    rintro rfl
    exact h hu
  rw [List.takeWhile_append_of_pos hs]
  cases n <;> simp

/-- The text of a record without NUL, as a string and as the padded bytes. -/
theorem descrText_returned {cs : List Char} {raw : Raw} (hmark : cs.head? ≠ some Utf8.mark) (hnul : '\x00' ∉ cs)
    (h : Returned (ofChars cs) raw) : descrText (some raw) = some (ofChars cs) := by
  have hzero := zero_notMem_ofChars hnul
  rcases h with rfl | rfl
  · have htake := takeWhile_nuls hzero 0
    rw [List.replicate_zero, List.append_nil] at htake
    exact congrArg some htake
  · have hhead : (cs ++ List.replicate (DESCR_MAX - byteLen (ofChars cs)) '\x00').head? ≠ some Utf8.mark := by
      cases cs with
      | nil =>
          rw [List.nil_append, List.head?_replicate]
          split
          · simp
          · decide
      | cons c cs => exact hmark
    rw [descrText, Option.map_some, Raw.string, padRecord, utf8_ofChars, ← encode_nuls, ← Utf8.encode_append,
      Utf8.decode_encode hhead, ofChars_append, ofChars_nuls, takeWhile_nuls hzero]

/-! ## Owners -/

theorem lowerUnit_hex {u : UInt16} (h : (hexValue u).isSome = true) :
    ∃ n < 16, hexValue u = some n ∧ hexDigit n = lowerUnit u := by
  have hu : UInt16.ofNat u.toNat = u := UInt16.ofNat_toNat
  have hlt := u.toNat_lt
  simp only [hexValue] at h ⊢
  split at h
  · exact ⟨u.toNat - 48, by omega, if_pos ‹_›, by
      rw [hexDigit, if_pos (by omega), lowerUnit, if_neg (by omega), Nat.add_sub_cancel' (by omega), hu]⟩
  · split at h
    · exact ⟨u.toNat - 87, by omega, by rw [if_neg ‹_›, if_pos ‹_›], by
        rw [hexDigit, if_neg (by omega), lowerUnit, if_neg (by omega), Nat.add_sub_cancel' (by omega), hu]⟩
    · split at h
      · refine ⟨u.toNat - 55, by omega, by rw [if_neg ‹_›, if_neg ‹_›, if_pos ‹_›], ?_⟩
        rw [hexDigit, if_neg (by omega), lowerUnit, if_pos (by omega), ← UInt16.toNat_inj, UInt16.toNat_add,
          UInt16.toNat_ofNat_of_lt' (by omega : _ < 65536)]
        simp
        omega
      · cases h

/-- The digits of the bytes are the digits in lower case. -/
theorem hex_unhex_lower (k : Units) (heven : k.length % 2 = 0) (h : ∀ u ∈ k, (hexValue u).isSome = true) :
    hex (unhex k) = k.map lowerUnit := by
  fun_induction unhex k with
  | case1 a b s ih =>
      obtain ⟨m, hm, hma, hda⟩ := lowerUnit_hex (h a (by simp))
      obtain ⟨n, hn, hnb, hdb⟩ := lowerUnit_hex (h b (by simp))
      have hval : (UInt8.ofNat (m * 16 + n)).toNat = m * 16 + n := UInt8.toNat_ofNat_of_lt' (by omega : _ < 256)
      have hdiv : (m * 16 + n) / 16 = m := by omega
      have hmod : (m * 16 + n) % 16 = n := by omega
      rw [List.length_cons, List.length_cons] at heven
      rw [hma, hnb, Option.getD_some, Option.getD_some, hex_cons, hval, hdiv, hmod, hda, hdb,
        ih (by omega) fun u hu => h u (List.mem_cons_of_mem _ (List.mem_cons_of_mem _ hu))]
      rfl
  | case2 s hno =>
      cases s with
      | nil => rfl
      | cons a s =>
          cases s with
          | nil => cases heven
          | cons b s => exact absurd rfl (hno a b s)

variable {k : Units}

theorem IsKid.digits (h : IsKid k) : ∀ u ∈ k, (hexValue u).isSome = true := by
  have hk := h.1
  simp only [isHexKid, Bool.and_eq_true, List.all_eq_true] at hk
  exact hk.1.1.2

theorem IsKid.hex_unhex (h : IsKid k) : hex (unhex k) = k.map lowerUnit :=
  hex_unhex_lower k (by rw [h.2]) h.digits

theorem IsKid.kidToField (h : IsKid k) : kidToField k = some (b64url (unhex k)) := by
  rw [Descr.kidToField, if_pos]
  rw [Bool.and_eq_true]
  exact ⟨h.1, decide_eq_true h.2⟩

theorem isKid_hex {b : Bytes} (h : b.length = 16) : IsKid (hex b) := by
  have hlen : (hex b).length = 32 := by rw [length_hex, h]
  refine ⟨?_, hlen⟩
  simp only [isHexKid, Bool.and_eq_true, List.all_eq_true, hlen]
  refine ⟨⟨⟨?_, ?_⟩, by decide⟩, by decide⟩
  · rw [decide_eq_true_iff]
    intro hnil
    rw [hnil] at hlen
    cases hlen
  · intro u hu
    obtain ⟨n, -, hn, -⟩ := hexValue_of_lower (mem_hex hu)
    rw [hn]
    rfl

theorem IsKid.lower (h : IsKid k) : IsKid (k.map lowerUnit) := by
  rw [← h.hex_unhex]
  exact isKid_hex (by rw [length_unhex, h.2])

theorem IsKid.unhex_lower (h : IsKid k) : unhex (k.map lowerUnit) = unhex k := by
  rw [← h.hex_unhex, unhex_hex]

/-! ## Round trips -/

/-- ASCII characters without NUL. -/
def IsText (a : Units) : Prop := ∀ u ∈ a, Ascii u ∧ u ≠ 0

theorem isText_self : IsText SELF_PREFIX := by simp [IsText, SELF_PREFIX, ascii, Ascii]

theorem isText_peer : IsText PEER_PREFIX := by simp [IsText, PEER_PREFIX, ascii, Ascii]

/-- A head of ASCII characters and a name, as characters. -/
theorem text_ofChars {a : Units} (ha : IsText a) (hne : a ≠ []) {p : List Char} (hp : '\x00' ∉ p) :
    ∃ cs, a ++ ofChars p = ofChars cs ∧ cs.head? ≠ some Utf8.mark ∧ '\x00' ∉ cs := by
  have hchars := ofChars_ascii fun u hu => (ha u hu).1
  have hchar : ∀ u ∈ a, (Char.ofNat u.toNat).toNat = u.toNat := by
    intro u hu
    have hlt : u.toNat < 0x80 := UInt16.lt_iff_toNat_lt.mp (ha u hu).1
    rw [Char.ofNat, dif_pos (.inl (by omega))]
    rfl
  refine ⟨(a.map fun u => Char.ofNat u.toNat) ++ p, by rw [ofChars_append, hchars], ?_, ?_⟩
  · cases a with
    | nil => exact absurd rfl hne
    | cons u a =>
        have hlt : u.toNat < 0x80 := UInt16.lt_iff_toNat_lt.mp (ha u List.mem_cons_self).1
        have hu := hchar u List.mem_cons_self
        intro hmark
        have hval := congrArg Char.toNat (Option.some.inj hmark)
        rw [hu] at hval
        have hbig : Utf8.mark.toNat = 0xFEFF := rfl
        omega
  · intro hmem
    rcases List.mem_append.mp hmem with hmem | hmem
    · obtain ⟨u, hu, hzero⟩ := List.mem_map.mp hmem
      have hval := hchar u hu
      rw [hzero] at hval
      exact (ha u hu).2 (UInt16.toNat_inj.mp hval.symm)
    · exact hp hmem

theorem notMem_longest {max : Nat} {name p : List Char} (h : Utf8.Longest max name p) {c : Char} (hc : c ∉ name) : c ∉ p :=
  fun hmem => hc (h.isPrefix.subset hmem)

theorem isPrefixOf_append (a b : Units) : a.isPrefixOf (a ++ b) = true := List.isPrefixOf_iff_prefix.mpr (List.prefix_append a b)

/-- A record of an identity, read back. -/
theorem self_read (handle : List Char) (h : '\x00' ∉ handle) : ∃ p, Utf8.Longest SELF_NAME_MAX handle p ∧
    byteLen (buildSelfDescr (ofChars handle)) ≤ DESCR_MAX ∧
    (∀ raw, Returned (buildSelfDescr (ofChars handle)) raw → parseSelfDescr (some raw) = some (ofChars p)) ∧
    buildSelfDescr (ofChars p) = buildSelfDescr (ofChars handle) := by
  obtain ⟨p, hp, hlong⟩ := sliceBytes_ofChars handle SELF_NAME_MAX
  have hfits : byteLen (ofChars p) ≤ SELF_NAME_MAX := by
    rw [byteLen_ofChars]
    exact hlong.fits
  have hbuild : buildSelfDescr (ofChars handle) = SELF_PREFIX ++ ofChars p := by rw [buildSelfDescr, hp]
  refine ⟨p, hlong, ?_, ?_, ?_⟩
  · have hmax : SELF_PREFIX.length + SELF_NAME_MAX ≤ DESCR_MAX := by decide
    rw [hbuild, byteLen_ascii fun u hu => (isText_self u hu).1]
    omega
  · intro raw hraw
    obtain ⟨cs, hcs, hmark, hnul⟩ := text_ofChars isText_self (by decide) (notMem_longest hlong h)
    rw [hbuild, hcs] at hraw
    rw [parseSelfDescr, descrText_returned hmark hnul hraw, ← hcs]
    dsimp only
    rw [if_pos (isPrefixOf_append _ _), List.drop_left]
  · rw [hbuild, buildSelfDescr, sliceBytes_self hfits]

/-- What stands before the name in a contact's record. -/
def peerHead (owner : Bytes) : Units := PEER_PREFIX ++ b64url owner ++ [0x2C]

theorem isText_peerHead (owner : Bytes) : IsText (peerHead owner) := by
  intro u hu
  rcases List.mem_append.mp hu with hu | hu
  · rcases List.mem_append.mp hu with hu | hu
    · exact isText_peer u hu
    · exact ⟨(mem_b64url hu).1.ascii, (mem_b64url hu).2.2.2⟩
  · rw [List.mem_singleton.mp hu]
    exact (by decide : (0x2C : UInt16) < 0x80 ∧ (0x2C : UInt16) ≠ 0)

theorem length_peerHead {owner : Bytes} (h : owner.length = 16) : (peerHead owner).length = 36 := by
  have hprefix : PEER_PREFIX.length = 13 := rfl
  simp only [peerHead, List.length_append, length_b64url, h, hprefix, List.length_singleton]

theorem byteLen_peerHead {owner : Bytes} (h : owner.length = 16) : byteLen (peerHead owner) = 36 := by
  have hlen := byteLen_ascii (fun u hu => (isText_peerHead owner u hu).1) []
  rwa [List.append_nil, length_peerHead h] at hlen

theorem IsKid.length_unhex (h : IsKid k) : (unhex k).length = 16 := by rw [Descr.length_unhex, h.2]

theorem IsKid.buildPeerDescr (h : IsKid k) (name : Units) :
    buildPeerDescr k name = some (peerHead (unhex k) ++ sliceBytes name 92) := by
  have hlen := byteLen_peerHead h.length_unhex
  rw [peerHead] at hlen
  rw [Descr.buildPeerDescr, h.kidToField]
  dsimp only
  rw [hlen]
  rfl

theorem IsKid.peerSearchPrefix (h : IsKid k) : peerSearchPrefix (some k) = peerHead (unhex k) := by
  cases k with
  | nil => cases h.2
  | cons u k =>
      rw [Descr.peerSearchPrefix, h.kidToField]
      rfl

/-- The owner of a record is the one of its head. -/
theorem isPrefix_peerHead {owner owner' : Bytes} (h : owner.length = 16) (h' : owner'.length = 16) (name : Units) :
    peerHead owner <+: peerHead owner' ++ name ↔ owner = owner' := by
  constructor
  · intro hpre
    have hlen : (peerHead owner).length = (peerHead owner').length := by rw [length_peerHead h, length_peerHead h']
    have hheads := (List.prefix_of_prefix_length_le hpre (List.prefix_append _ _) hlen.le).eq_of_length hlen
    exact b64url_inj (List.append_cancel_left (List.append_cancel_right hheads))
  · rintro rfl
    exact List.prefix_append _ _

/-- The record of a contact, read back. -/
theorem peer_parse {owner : Bytes} (h : owner.length = 16) {p : List Char} (hp : '\x00' ∉ p) {raw : Raw}
    (hraw : Returned (peerHead owner ++ ofChars p) raw) : parsePeerDescr (some raw) = some (hex owner, ofChars p) := by
  have hne : peerHead owner ≠ [] := by
    intro hnil
    have hlen := length_peerHead h
    rw [hnil] at hlen
    cases hlen
  obtain ⟨cs, hcs, hmark, hnul⟩ := text_ofChars (isText_peerHead owner) hne hp
  rw [hcs] at hraw
  have hcomma : (b64url owner ++ ([0x2C] ++ ofChars p)).idxOf 0x2C = (b64url owner).length := by
    rw [List.idxOf_append_of_notMem fun hmem => (mem_b64url hmem).2.2.1 rfl]
    rfl
  rw [parsePeerDescr, descrText_returned hmark hnul hraw, ← hcs, peerHead, List.append_assoc, List.append_assoc]
  dsimp only
  rw [if_pos (isPrefixOf_append _ _), List.drop_left, hcomma, if_pos (by simp), List.take_left, kidFromField,
    unb64url_b64url]
  dsimp only
  rw [if_pos h]
  simp

/-- A record of a contact, built and read back. -/
theorem peer_read (hk : IsKid k) (name : List Char) (h : '\x00' ∉ name) : ∃ p descr, Utf8.Longest PEER_NAME_MAX name p ∧
    buildPeerDescr k (ofChars name) = some descr ∧ byteLen descr ≤ DESCR_MAX ∧
    (∀ raw, Returned descr raw → parsePeerDescr (some raw) = some (k.map lowerUnit, ofChars p)) ∧
    buildPeerDescr (k.map lowerUnit) (ofChars p) = some descr := by
  obtain ⟨p, hp, hlong⟩ := sliceBytes_ofChars name 92
  have hfits : byteLen (ofChars p) ≤ 92 := by
    rw [byteLen_ofChars]
    exact hlong.fits
  refine ⟨p, peerHead (unhex k) ++ ofChars p, hlong, ?_, ?_, ?_, ?_⟩
  · rw [hk.buildPeerDescr, hp]
  · have hmax : 36 + 92 ≤ DESCR_MAX := by decide
    rw [byteLen_ascii fun u hu => (isText_peerHead _ u hu).1, length_peerHead hk.length_unhex]
    omega
  · intro raw hraw
    rw [← hk.hex_unhex]
    exact peer_parse hk.length_unhex (notMem_longest hlong h) hraw
  · rw [hk.lower.buildPeerDescr, hk.unhex_lower, sliceBytes_self hfits]

/-- What is searched for an owner is what the records of that owner begin with, and no others. -/
theorem search_iff {k' : Units} (hk : IsKid k) (hk' : IsKid k') {name descr : Units} (h : buildPeerDescr k' name = some descr) :
    peerSearchPrefix (some k) <+: descr ↔ k.map lowerUnit = k'.map lowerUnit := by
  rw [hk'.buildPeerDescr, Option.some.injEq] at h
  rw [hk.peerSearchPrefix, ← h, isPrefix_peerHead hk.length_unhex hk'.length_unhex]
  constructor
  · intro heq
    rw [← hk.hex_unhex, heq, hk'.hex_unhex]
  · intro heq
    rw [← hk.unhex_lower, heq, hk'.unhex_lower]

/-- The records of identities and contacts are read back as they were written, and found by their owner. -/
theorem records_roundtrip (k : Units) (hk : IsKid k) (name : List Char) (h : '\x00' ∉ name) :
    (∃ p, Utf8.Longest SELF_NAME_MAX name p ∧ byteLen (buildSelfDescr (ofChars name)) ≤ DESCR_MAX ∧
      (∀ raw, Returned (buildSelfDescr (ofChars name)) raw → parseSelfDescr (some raw) = some (ofChars p)) ∧
      buildSelfDescr (ofChars p) = buildSelfDescr (ofChars name)) ∧
    ∃ p descr, Utf8.Longest PEER_NAME_MAX name p ∧ buildPeerDescr k (ofChars name) = some descr ∧
      byteLen descr ≤ DESCR_MAX ∧
      (∀ raw, Returned descr raw → parsePeerDescr (some raw) = some (k.map lowerUnit, ofChars p)) ∧
      buildPeerDescr (k.map lowerUnit) (ofChars p) = some descr ∧
      ∀ k', IsKid k' → (peerSearchPrefix (some k') <+: descr ↔ k'.map lowerUnit = k.map lowerUnit) := by
  obtain ⟨p, descr, hlong, hbuild, hlen, hparse, hagain⟩ := peer_read hk name h
  exact ⟨self_read name h, p, descr, hlong, hbuild, hlen, hparse, hagain, fun k' hk' => search_iff hk' hk hbuild⟩

/-- A name with a comma and one of four bytes. -/
theorem records_roundtrip_name : ∃ k name, IsKid k ∧ '\x00' ∉ name ∧ ∃ p, Utf8.Longest SELF_NAME_MAX name p ∧
    ∀ raw, Returned (buildSelfDescr (ofChars name)) raw → parseSelfDescr (some raw) = some (ofChars p) := by
  have hk : IsKid (hex (List.replicate 16 0xA5)) := isKid_hex (by simp)
  have hname : '\x00' ∉ "Ala, 🙂".toList := by decide
  obtain ⟨⟨p, hlong, -, hparse, -⟩, -⟩ := records_roundtrip _ hk _ hname
  exact ⟨_, _, hk, hname, p, hlong, hparse⟩

end EncedoChat.Descr
