import EncedoChat.Handshake.Wire
import EncedoChat.Core.Skipped

/-!
# The wire of the Rust core

`core-rs/src/wire.rs`: the three handshake frames, over fields of fixed widths where the type has one. What it reads and
what `eh2/wire.ts` reads are compared, and the ratchet header of both.
-/

namespace EncedoChat.Core.Wire

open EncedoChat.Eh2 (Pub Header)
open EncedoChat.Handshake (Framed layOut framed_layOut X25519_PUB TS MAC MAX_SAFE EH2_VERSION)

def VERSION : UInt8 := 3
def T_MSG1 : UInt8 := 0x01
def T_MSG2 : UInt8 := 0x02
def T_MSG3 : UInt8 := 0x03
def PK_LEN : Nat := 1184
def CT_LEN : Nat := 1088
def MSG1_LEN : Nat := 2 + 32 + 2 + PK_LEN + 8 + 32
def MSG2_LEN : Nat := 2 + 32 + 2 + CT_LEN + 8 + 32
def MSG3_LEN : Nat := 2 + 32

structure WireError where
  text : String
  deriving DecidableEq

/-- `[u8; 32]` -/
abbrev Array32 := Pub

/-- What sets `Msg1` and `Msg2` apart. -/
structure Layout where
  type : UInt8
  kemLen : Nat
  refusal : String

def Layout.len (L : Layout) : Nat := 2 + 32 + 2 + L.kemLen + 8 + 32

def msg1Layout : Layout := ⟨T_MSG1, PK_LEN, "msg1.pq_pub must be ML-KEM-768"⟩
def msg2Layout : Layout := ⟨T_MSG2, CT_LEN, "msg2.pq_ct must be ML-KEM-768"⟩

/-- `Msg1` with its `pq_pub` and `initiator_tag`, or `Msg2` with its `pq_ct` and `mac_r`. -/
structure Offer where
  ekPub : Array32
  kem : Bytes
  ts : UInt64
  tag : Array32

/-- The length of the frame comes with the header: every place of a field is in range. -/
def header (b : Bytes) (want : UInt8) (len : Nat) : Except WireError (PLift (b.length = len)) :=
  if b.length < 2 then .error ⟨"truncated header"⟩
  else if b.getD 0 0 ≠ want then .error ⟨"wrong frame type"⟩
  else if b.getD 1 0 ≠ VERSION then .error ⟨"unsupported version"⟩
  else if h : b.length = len then .ok ⟨h⟩
  else .error ⟨"length does not fit"⟩

theorem length_arr32 {b : Bytes} {o : Nat} (h : o + 32 ≤ b.length) : (Bytes.slice b o (o + 32)).length = 32 :=
  (Bytes.length_slice b (by omega) h).trans (by omega)

def arr32 (b : Bytes) (o : Nat) (h : o + 32 ≤ b.length) : Array32 := ⟨Bytes.slice b o (o + 32), length_arr32 h⟩

def Offer.encode (L : Layout) (m : Offer) : Bytes :=
  [L.type, VERSION] ++ m.ekPub.1 ++ Bytes.u16be m.kem.length ++ m.kem ++ Bytes.u64be m.ts.toNat ++ m.tag.1

theorem ek_in_range {L : Layout} {b : Bytes} (h : b.length = L.len) : 2 + 32 ≤ b.length := by
  rw [h, Layout.len]
  omega

theorem tag_in_range {L : Layout} {b : Bytes} (h : b.length = L.len) {n : Nat} (hn : n = L.kemLen) :
    36 + n + 8 + 32 ≤ b.length := by
  rw [h, Layout.len, hn]

def Offer.decode (L : Layout) (b : Bytes) : Except WireError Offer := do
  let ⟨hlen⟩ ← header b L.type L.len
  let ekPub := arr32 b 2 (ek_in_range hlen)
  let n := Bytes.getU16 b 34
  if hn : n = L.kemLen then
    let kem := Bytes.slice b 36 (36 + n)
    let o := 36 + n
    let ts := UInt64.ofNat (Bytes.getU64 b o)
    let tag := arr32 b (o + 8) (tag_in_range hlen hn)
    return ⟨ekPub, kem, ts, tag⟩
  else throw ⟨L.refusal⟩

abbrev Msg1 := Offer
abbrev Msg2 := Offer

def encodeMsg1 : Msg1 → Bytes := Offer.encode msg1Layout
def decodeMsg1 : Bytes → Except WireError Msg1 := Offer.decode msg1Layout
def encodeMsg2 : Msg2 → Bytes := Offer.encode msg2Layout
def decodeMsg2 : Bytes → Except WireError Msg2 := Offer.decode msg2Layout

def encodeMsg3 (macI : Array32) : Bytes := [T_MSG3, VERSION] ++ macI.1

def decodeMsg3 (b : Bytes) : Except WireError Array32 := do
  let ⟨hlen⟩ ← header b T_MSG3 MSG3_LEN
  return arr32 b 2 (Nat.le_of_eq hlen.symm)

/-! ## One encoding for each frame -/

section
variable {L : Layout} {b : Bytes} {want : UInt8} {len : Nat}

theorem header_ok {h : PLift (b.length = len)} (h2 : 2 ≤ len) :
    header b want len = .ok h ↔ b.getD 0 0 = want ∧ b.getD 1 0 = VERSION := by
  have hlen := h.down
  rw [header, guard_ok, guard_ok, guard_ok, dif_pos hlen, not_lt, not_not, not_not]
  exact ⟨fun ⟨_, ht, hv, _⟩ => ⟨ht, hv⟩, fun ⟨ht, hv⟩ => ⟨by omega, ht, hv, rfl⟩⟩

theorem getU64_lt (b : Bytes) {o : Nat} (h : o + 8 ≤ b.length) : Bytes.getU64 b o < 2 ^ 64 := by
  have hl : (Bytes.slice b o (o + 8)).length = 8 := (Bytes.length_slice b (by omega) h).trans (by omega)
  have he := Bytes.toNat_ofNat 8 (Bytes.toNat (Bytes.slice b o (o + 8)))
  rw [Bytes.ofNat_toNat hl] at he
  rw [Bytes.getU64, he]
  exact Nat.mod_lt _ (by norm_num)

theorem Offer.decode_ok {m : Offer} :
    decode L b = .ok m ↔ Framed L.type L.kemLen b m.ekPub.1 m.kem m.ts.toNat m.tag.1 := by
  have htwo : 2 ≤ L.len := by
    rw [Layout.len]
    omega
  simp only [decode, bind_ok]
  constructor
  · rintro ⟨⟨hlen⟩, hhead, hread⟩
    obtain ⟨htype, hversion⟩ := (header_ok htwo).mp hhead
    by_cases hn : Bytes.getU16 b 34 = L.kemLen
    · rw [dif_pos hn] at hread
      obtain rfl := Except.ok.inj hread
      have hu64 : Bytes.getU64 b (36 + Bytes.getU16 b 34) < 2 ^ 64 := by
        apply getU64_lt
        have := tag_in_range hlen hn
        omega
      refine ⟨htype, hversion, hlen, hn, rfl, ?_, ?_, ?_⟩
      · dsimp only
        rw [hn]
      · dsimp only
        rw [UInt64.toNat_ofNat_of_lt' hu64, hn]
      · dsimp only [arr32]
        rw [hn, show 36 + L.kemLen + 8 + 32 = 76 + L.kemLen by omega, show 36 + L.kemLen + 8 = 44 + L.kemLen by omega]
    · rw [dif_neg hn] at hread
      cases hread
  · intro h
    have hlen : b.length = L.len := h.length
    refine ⟨⟨hlen⟩, (header_ok htwo).mpr ⟨h.type, h.version⟩, ?_⟩
    rw [dif_pos h.kemLen]
    obtain ⟨⟨ek, hek⟩, kem, ts, ⟨tag, htag⟩⟩ := m
    refine congrArg Except.ok ?_
    simp only [Offer.mk.injEq, arr32, Subtype.mk.injEq, h.kemLen]
    refine ⟨h.ekPub, h.kem, ?_, ?_⟩
    · rw [h.ts, UInt64.ofNat_toNat]
    · refine Eq.trans ?_ h.tag
      rw [show 36 + L.kemLen + 8 + 32 = 76 + L.kemLen by omega, show 36 + L.kemLen + 8 = 44 + L.kemLen by omega]

/-- A key, or a ciphertext, of ML-KEM-768. -/
def Offer.Fits (L : Layout) (m : Offer) : Prop := m.kem.length = L.kemLen

theorem Offer.decode_iff (hL : L.kemLen < 2 ^ 16) {m : Offer} : decode L b = .ok m ↔ m.Fits L ∧ m.encode L = b := by
  have hlayOut : m.encode L = layOut L.type m.ekPub.1 m.kem m.ts.toNat m.tag.1 := by
    simp only [Offer.encode, layOut, List.append_assoc]
    rfl
  rw [decode_ok, hlayOut]
  constructor
  · intro h
    obtain ⟨-, hkem, -, hb⟩ := h.layOut_eq
    exact ⟨hkem, hb⟩
  · rintro ⟨hkem, rfl⟩
    exact framed_layOut m.ekPub.2 hkem m.tag.2 hL m.ts.toNat_lt

theorem decodeMsg3_iff {macI : Array32} : decodeMsg3 b = .ok macI ↔ encodeMsg3 macI = b := by
  simp only [decodeMsg3, bind_ok]
  constructor
  · rintro ⟨⟨hlen⟩, hhead, hread⟩
    obtain ⟨htype, hversion⟩ := (header_ok (by decide)).mp hhead
    obtain rfl := Except.ok.inj hread
    have h34 : b.length = 34 := hlen
    have htwo : [T_MSG3, VERSION] = Bytes.slice b 0 2 := (Handshake.head_two (by omega) htype hversion).symm
    rw [encodeMsg3, htwo, arr32, Bytes.slice_append_slice b (by omega) (by omega), show 2 + 32 = b.length from h34.symm,
      Bytes.slice_all]
  · rintro rfl
    have hlen : (encodeMsg3 macI).length = MSG3_LEN := by simp [encodeMsg3, macI.2, MSG3_LEN]
    refine ⟨⟨hlen⟩, (header_ok (by decide)).mpr ⟨rfl, rfl⟩, congrArg Except.ok (Subtype.ext ?_)⟩
    simp [arr32, encodeMsg3, Bytes.slice, ← macI.2]

end

/-! ## One encoding for each header -/

section
variable {frame : Bytes} {h : Header} {len : Nat}

/-- A header whose counters and fields are what the wire has room for. -/
structure OnWire (h : Header) : Prop where
  fits : h.Fits
  pn : h.pn < 2 ^ 32
  n : h.n < 2 ^ 32

theorem OnWire.wire_eq (hw : OnWire h) : h.wire = h := by
  obtain ⟨dhPub, pn, n, pqCt, pqPub⟩ := h
  simp only [Header.wire, Nat.mod_eq_of_lt hw.pn, Nat.mod_eq_of_lt hw.n]

theorem slice_one {b : Bytes} {i : Nat} (hi : i < b.length) : Bytes.slice b i (i + 1) = [b.getD i 0] := by
  rw [Bytes.slice, Nat.add_sub_cancel_left, List.getD_eq_getElem?_getD, List.getElem?_eq_getElem hi, Option.getD_some,
    List.take_one, List.head?_drop, List.getElem?_eq_getElem hi]
  rfl

/-- A field that is read is the bytes it was read from. -/
theorem field_of_decode {flags which : UInt8} {o o' : Nat} {f : Option Bytes} (ho : o ≤ frame.length)
    (hd : Eh2.decodeField frame flags which o = some (f, o')) :
    (flags &&& which = 0 ↔ f = none) ∧ Eh2.FieldOk f ∧ o ≤ o' ∧ o' ≤ frame.length ∧
      Bytes.slice frame o o' = Eh2.encodeField f := by
  rw [Eh2.decodeField] at hd
  split at hd
  · rename_i habsent
    obtain ⟨rfl, rfl⟩ := Prod.mk.inj (Option.some.inj hd)
    exact ⟨iff_of_true habsent rfl, Eh2.fieldOk_none, le_rfl, ho, by simp [Bytes.slice, Eh2.encodeField]⟩
  rename_i hpresent
  split at hd
  · cases hd
  rename_i htwo
  dsimp only at hd
  split at hd
  · cases hd
  rename_i hbody
  obtain ⟨rfl, rfl⟩ := Prod.mk.inj (Option.some.inj hd)
  obtain ⟨hpos, hfits⟩ := not_or.mp hbody
  have hlen : (Bytes.slice frame (o + 2) (o + 2 + Bytes.getU16 frame o)).length = Bytes.getU16 frame o :=
    (Bytes.length_slice frame (by omega) (by omega)).trans (by omega)
  have h16 : Bytes.u16be (Bytes.getU16 frame o) = Bytes.slice frame o (o + 2) :=
    Bytes.ofNat_toNat ((Bytes.length_slice frame (by omega) (by omega)).trans (by omega))
  have hlt : Bytes.getU16 frame o < 2 ^ 16 := by
    have hmod := Bytes.toNat_u16be (Bytes.getU16 frame o)
    rw [h16] at hmod
    rw [Bytes.getU16, hmod]
    exact Nat.mod_lt _ (by decide)
  refine ⟨iff_of_false hpresent (by simp), ?_, by omega, by omega, ?_⟩
  · intro b hb
    obtain rfl := Option.some.inj hb
    rw [hlen]
    exact ⟨Nat.pos_of_ne_zero hpos, hlt⟩
  · rw [Eh2.encodeField, hlen, h16, Bytes.slice_append_slice frame (by omega) (by omega)]

set_option maxRecDepth 2000 in
theorem low_flags : ∀ n < 256, n &&& 252 = 0 → n < 4 := by decide

/-- The flags byte tells which fields there are, and nothing else. -/
theorem flags_of_fields {flags : UInt8} {ct pub : Option Bytes}
    (hflags : ¬(flags = 0 ∨ flags &&& ~~~(Eh2.PQ_CT ||| Eh2.PQ_PUB) ≠ 0)) (hct : flags &&& Eh2.PQ_CT = 0 ↔ ct = none)
    (hpub : flags &&& Eh2.PQ_PUB = 0 ↔ pub = none) :
    (ct.isSome || pub.isSome) = true ∧
      flags = (if ct.isSome then Eh2.PQ_CT else 0) ||| (if pub.isSome then Eh2.PQ_PUB else 0) := by
  obtain ⟨hne, hhigh⟩ := not_or.mp hflags
  have hland : flags.toNat &&& 252 = 0 := by
    have := congrArg UInt8.toNat (not_not.mp hhigh)
    rwa [UInt8.toNat_and] at this
  have hlow := low_flags flags.toNat flags.toNat_lt hland
  have hthree : flags = 1 ∨ flags = 2 ∨ flags = 3 := by
    have hpos : flags.toNat ≠ 0 := fun h0 => hne (UInt8.toNat_inj.mp h0)
    simp only [← UInt8.toNat_inj, UInt8.reduceToNat]
    omega
  rcases hthree with rfl | rfl | rfl
  · obtain ⟨x, hx⟩ := Option.ne_none_iff_exists'.mp (mt hct.mpr (by decide))
    simp [hx, hpub.mp (by decide), Eh2.PQ_CT]
  · obtain ⟨x, hx⟩ := Option.ne_none_iff_exists'.mp (mt hpub.mpr (by decide))
    simp [hx, hct.mp (by decide), Eh2.PQ_PUB]
  · obtain ⟨x, hx⟩ := Option.ne_none_iff_exists'.mp (mt hct.mpr (by decide))
    obtain ⟨y, hy⟩ := Option.ne_none_iff_exists'.mp (mt hpub.mpr (by decide))
    rw [hx, hy]
    exact ⟨rfl, (by decide : (3 : UInt8) = Eh2.PQ_CT ||| Eh2.PQ_PUB)⟩

/-- A header that is read is the bytes it was read from. -/
theorem encode_of_decodeHeader (hd : Eh2.decodeHeader frame = some (h, len)) :
    OnWire h ∧ frame.take len = Eh2.encodeHeader h ∧ len + 16 ≤ frame.length := by
  have hroom := Eh2.decodeHeader_length hd
  obtain ⟨hn, hpn⟩ := decodeHeader_counters hd
  unfold Eh2.decodeHeader at hd
  split at hd
  · cases hd
  rename_i hlen
  have h58 : 58 ≤ frame.length := Nat.not_lt.mp hlen
  split at hd
  · cases hd
  rename_i hversion
  dsimp only at hd
  have h32 : ∀ o, o + 4 ≤ frame.length → Bytes.u32be (Bytes.getU32 frame o) = Bytes.slice frame o (o + 4) := by
    intro o ho
    exact Bytes.ofNat_toNat ((Bytes.length_slice frame (by omega) ho).trans (by omega))
  have hhead : ∀ {t : UInt8}, frame.getD 0 0 = t →
      [t, Eh2.VERSION] ++ (Bytes.slice frame 2 34 ++ (Bytes.u32be (Bytes.getU32 frame 34) ++ Bytes.u32be (Bytes.getU32 frame 38))) =
        Bytes.slice frame 0 42 := by
    intro t ht
    rw [← Handshake.head_two (by omega) ht (not_not.mp hversion), h32 34 (by omega), h32 38 (by omega),
      Bytes.slice_append_slice frame (by omega) (by omega), Bytes.slice_append_slice frame (by omega) (by omega),
      Bytes.slice_append_slice frame (by omega) (by omega)]
  have htake : ∀ n, Bytes.slice frame 0 n = frame.take n := fun n => by simp [Bytes.slice]
  split at hd
  · rename_i hplain
    obtain ⟨rfl, rfl⟩ := Prod.mk.inj (Option.some.inj hd)
    refine ⟨⟨⟨Eh2.fieldOk_none, Eh2.fieldOk_none⟩, hpn, hn⟩, ?_, hroom⟩
    simpa [Eh2.encodeHeader, Eh2.HDR_LEN, htake] using (hhead hplain).symm
  split at hd
  · cases hd
  rename_i hpq
  split at hd
  · cases hd
  rename_i hflags
  split at hd
  · cases hd
  rename_i ct o hct
  split at hd
  · cases hd
  rename_i pub o' hpub
  split at hd
  · cases hd
  obtain ⟨rfl, rfl⟩ := Prod.mk.inj (Option.some.inj hd)
  obtain ⟨hctflag, hctok, hcto, hctend, hctbytes⟩ := field_of_decode (by omega) hct
  obtain ⟨hpubflag, hpubok, hpubo, -, hpubbytes⟩ := field_of_decode hctend hpub
  obtain ⟨hany, hbyte⟩ := flags_of_fields hflags hctflag hpubflag
  refine ⟨⟨⟨hctok, hpubok⟩, hpn, hn⟩, ?_, hroom⟩
  have hflag : ∀ d, [Eh2.encodeFlags ⟨d, Bytes.getU32 frame 34, Bytes.getU32 frame 38, ct, pub⟩] = Bytes.slice frame 42 43 := by
    intro d
    rw [slice_one (by omega), hbyte]
    rfl
  simp only [Eh2.encodeHeader, hany, if_true]
  rw [← htake, hflag, ← hctbytes, ← hpubbytes, Bytes.slice_append_slice frame hcto hpubo,
    Bytes.slice_append_slice frame (by omega) (by omega), ← Bytes.slice_append_slice frame (Nat.zero_le 42) (by omega),
    ← hhead (not_not.mp hpq)]
  simp only [List.append_assoc]

/-- A frame is a header, one of them, and what it is the associated data of. -/
theorem decodeHeader_iff : Eh2.decodeHeader frame = some (h, len) ↔
    OnWire h ∧ ∃ ct : Bytes, 16 ≤ ct.length ∧ frame = Eh2.encodeHeader h ++ ct ∧ len = (Eh2.encodeHeader h).length := by
  constructor
  · intro hd
    obtain ⟨hw, htake, hroom⟩ := encode_of_decodeHeader hd
    refine ⟨hw, frame.drop len, ?_, ?_, ?_⟩
    · rw [List.length_drop]
      omega
    · rw [← htake, List.take_append_drop]
    · rw [← htake, List.length_take]
      omega
  · rintro ⟨hw, ct, hct, rfl, rfl⟩
    rw [Eh2.decodeHeader_encodeHeader hw.fits hct, hw.wire_eq]

end

/-! ## Both codecs -/

/-- What the TypeScript holds of a message: its time is a number. -/
def Offer.toTs (m : Offer) : Handshake.Offer := ⟨m.ekPub.1, m.kem, m.ts.toNat, m.tag.1⟩

/-- Both read the same frames, but for a time that is no safe integer. -/
theorem Offer.decode_shared (T : Handshake.Layout) (L : Layout) (htype : L.type = T.type) (hkem : L.kemLen = T.kemLen) (b : Bytes)
    (m : Handshake.Offer) :
    Handshake.Offer.decode T b = .ok m ↔ ∃ r, Offer.decode L b = .ok r ∧ r.ts.toNat ≤ MAX_SAFE ∧ r.toTs = m := by
  rw [Handshake.Offer.decode_ok]
  simp only [Offer.decode_ok, htype, hkem]
  constructor
  · intro h
    have hframed : Framed T.type T.kemLen b _ _ _ _ := ⟨h.type, h.version, h.length, h.kemLen, rfl, rfl, rfl, rfl⟩
    obtain ⟨hek, -, htag, -⟩ := hframed.layOut_eq
    have hts : (UInt64.ofNat (Bytes.getU64 b (36 + T.kemLen))).toNat = Bytes.getU64 b (36 + T.kemLen) :=
      UInt64.toNat_ofNat_of_lt' (Nat.lt_of_le_of_lt h.range (by decide))
    refine ⟨⟨⟨_, hek⟩, Bytes.slice b 36 (36 + T.kemLen), UInt64.ofNat (Bytes.getU64 b (36 + T.kemLen)), ⟨_, htag⟩⟩, ?_, ?_, ?_⟩
    · dsimp only
      rw [hts]
      exact hframed
    · dsimp only
      rw [hts]
      exact h.range
    · rw [← h.offer, Offer.toTs]
      dsimp only
      rw [hts]
  · rintro ⟨r, h, hrange, rfl⟩
    refine ⟨h.type, h.version, h.length, h.kemLen, h.ts ▸ hrange, ?_⟩
    rw [Offer.toTs, h.ekPub, h.kem, h.ts, h.tag]

theorem decodeMsg3_shared (b : Bytes) (macI : Bytes) :
    Handshake.decodeMsg3 b = .ok macI ↔ ∃ r, decodeMsg3 b = .ok r ∧ r.1 = macI := by
  rw [Handshake.decodeMsg3_ok, Handshake.encodeMsg3_ok]
  simp only [decodeMsg3_iff]
  constructor
  · rintro ⟨hlen, hb⟩
    exact ⟨⟨macI, hlen⟩, hb, rfl⟩
  · rintro ⟨r, hb, rfl⟩
    exact ⟨r.2, hb⟩

/-- Of each frame there is one spelling, and the two implementations read the same frames as the same messages; but a msg1 or
a msg2 whose time is past the safe integers is read by the core alone. -/
theorem wire_canonical :
    ((∀ b m, Handshake.decodeMsg1 b = .ok m ↔ Handshake.encodeMsg1 m = .ok b) ∧
      (∀ b m, Handshake.decodeMsg2 b = .ok m ↔ Handshake.encodeMsg2 m = .ok b) ∧
      (∀ b m, Handshake.decodeMsg3 b = .ok m ↔ Handshake.encodeMsg3 m = .ok b) ∧
      ∀ frame h len, Eh2.decodeHeader frame = some (h, len) ↔ OnWire h ∧ ∃ ct : Bytes, 16 ≤ ct.length ∧
        frame = Eh2.encodeHeader h ++ ct ∧ len = (Eh2.encodeHeader h).length) ∧
    ((∀ b m, decodeMsg1 b = .ok m ↔ m.Fits msg1Layout ∧ encodeMsg1 m = b) ∧
      (∀ b m, decodeMsg2 b = .ok m ↔ m.Fits msg2Layout ∧ encodeMsg2 m = b) ∧
      (∀ b m, decodeMsg3 b = .ok m ↔ encodeMsg3 m = b) ∧
      ∀ frame h len, Core.decodeHeader frame = some (h, len) ↔ OnWire h ∧ ∃ ct : Bytes, 16 ≤ ct.length ∧
        frame = Core.encodeHeader h ++ ct ∧ len = (Core.encodeHeader h).length) ∧
    (∀ b m, Handshake.decodeMsg1 b = .ok m ↔ ∃ r, decodeMsg1 b = .ok r ∧ r.ts.toNat ≤ MAX_SAFE ∧ r.toTs = m) ∧
      (∀ b m, Handshake.decodeMsg2 b = .ok m ↔ ∃ r, decodeMsg2 b = .ok r ∧ r.ts.toNat ≤ MAX_SAFE ∧ r.toTs = m) ∧
      (∀ b m, Handshake.decodeMsg3 b = .ok m ↔ ∃ r, decodeMsg3 b = .ok r ∧ r.1 = m) ∧
      (∀ frame, Core.decodeHeader frame = Eh2.decodeHeader frame) ∧
    (∀ r : Msg1, r.Fits msg1Layout → r.ts.toNat ≤ MAX_SAFE → Handshake.encodeMsg1 r.toTs = .ok (encodeMsg1 r)) ∧
      (∀ r : Msg2, r.Fits msg2Layout → r.ts.toNat ≤ MAX_SAFE → Handshake.encodeMsg2 r.toTs = .ok (encodeMsg2 r)) ∧
      (∀ r, Handshake.encodeMsg3 r.1 = .ok (encodeMsg3 r)) ∧ ∀ h, Core.encodeHeader h = Eh2.encodeHeader h := by
  refine ⟨⟨fun b m => Handshake.decodeMsg1_ok, fun b m => Handshake.decodeMsg2_ok, fun b m => Handshake.decodeMsg3_ok,
    fun frame h len => decodeHeader_iff⟩, ⟨fun b m => Offer.decode_iff (by decide), fun b m => Offer.decode_iff (by decide),
    fun b m => decodeMsg3_iff, fun frame h len => ?_⟩, ?_, ?_, decodeMsg3_shared, decodeHeader_eq, ?_, ?_, ?_, encodeHeader_eq⟩
  · rw [decodeHeader_eq, encodeHeader_eq, decodeHeader_iff]
  · exact Offer.decode_shared Handshake.msg1Layout msg1Layout rfl rfl
  · exact Offer.decode_shared Handshake.msg2Layout msg2Layout rfl rfl
  · intro r hfits hsafe
    apply Handshake.decodeMsg1_ok.mp
    exact (Offer.decode_shared Handshake.msg1Layout msg1Layout rfl rfl _ _).mpr
      ⟨r, (Offer.decode_iff (by decide)).mpr ⟨hfits, rfl⟩, hsafe, rfl⟩
  · intro r hfits hsafe
    apply Handshake.decodeMsg2_ok.mp
    exact (Offer.decode_shared Handshake.msg2Layout msg2Layout rfl rfl _ _).mpr
      ⟨r, (Offer.decode_iff (by decide)).mpr ⟨hfits, rfl⟩, hsafe, rfl⟩
  · intro r
    exact Handshake.decodeMsg3_ok.mp ((decodeMsg3_shared _ _).mpr ⟨r, decodeMsg3_iff.mpr rfl, rfl⟩)

theorem length_noughts : (List.replicate 32 (0 : UInt8)).length = 32 := List.length_replicate

/-- A msg1 of a time past the safe integers. -/
def lateMsg1 : Msg1 where
  ekPub := ⟨List.replicate 32 0, length_noughts⟩
  kem := List.replicate PK_LEN 0
  ts := 9007199254740992
  tag := ⟨List.replicate 32 0, length_noughts⟩

theorem decoders_differ : ¬∀ b, (∃ m, Handshake.decodeMsg1 b = .ok m) ↔ ∃ m, decodeMsg1 b = .ok m := by
  intro hsame
  have hcore : decodeMsg1 (encodeMsg1 lateMsg1) = .ok lateMsg1 :=
    (Offer.decode_iff (by decide)).mpr ⟨List.length_replicate, rfl⟩
  obtain ⟨m, hm⟩ := (hsame (encodeMsg1 lateMsg1)).mpr ⟨_, hcore⟩
  obtain ⟨r, hr, hrange, -⟩ := (Offer.decode_shared Handshake.msg1Layout msg1Layout rfl rfl _ m).mp hm
  obtain rfl := Except.ok.inj (hr.symm.trans hcore)
  exact absurd hrange (by decide)

end EncedoChat.Core.Wire
