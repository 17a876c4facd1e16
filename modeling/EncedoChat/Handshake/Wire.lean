import EncedoChat.Lib.Bytes
import EncedoChat.Lib.Except

/-!
# The handshake frames

`eh2/wire.ts`: the three frames and what they are refused for, and the strings that the transcript hashes run
over. msg1 and msg2 have one layout; what tells them apart is a parameter.
-/

namespace EncedoChat.Handshake

/-- A number of milliseconds, as the source computes with it. -/
abbrev Time := Int

def EH2_VERSION : UInt8 := 3
def T_MSG1 : UInt8 := 0x01
def T_MSG2 : UInt8 := 0x02
def T_MSG3 : UInt8 := 0x03
def X25519_PUB : Nat := 32
def MAC : Nat := 32
def TS : Nat := 8
def INITIATOR_TAG : Nat := 32
def MLKEM768_PK : Nat := 1184
def MLKEM768_CT : Nat := 1088
/-- `Number.MAX_SAFE_INTEGER` -/
def MAX_SAFE : Nat := 2 ^ 53 - 1

inductive WireError where
  | truncatedHeader (name : String)
  | wrongType (name : String) (got : UInt8)
  | version (name : String) (got : UInt8)
  | truncated (field : String)
  | truncatedLength (field : String)
  | kemLength (field : String) (want got : Nat)
  | range
  | trailing (name : String) (n : Nat)
  | width (field : String) (want got : Nat)
  | timestamp (got : Time)
  deriving DecidableEq

def hexOf (b : UInt8) : String := String.ofList (Nat.toDigits 16 b.toNat)

def WireError.message : WireError → String
  | .truncatedHeader name => "EH-2 wire: " ++ name ++ ": truncated header"
  | .wrongType name got => "EH-2 wire: " ++ name ++ ": wrong frame type 0x" ++ hexOf got
  | .version name got =>
    "EH-2 wire: " ++ name ++ ": unsupported version " ++ toString got ++ " (expected " ++ toString EH2_VERSION ++ ")"
  | .truncated field => "EH-2 wire: " ++ field ++ ": truncated"
  | .truncatedLength field => "EH-2 wire: " ++ field ++ ": truncated length"
  | .kemLength field want got =>
    "EH-2 wire: " ++ field ++ " must be " ++ toString want ++ " B (ML-KEM-768), got " ++ toString got
  | .range => "EH-2 wire: timestamp out of safe range"
  | .trailing name n => "EH-2 wire: " ++ name ++ ": " ++ toString n ++ " trailing byte(s)"
  | .width field want got => "EH-2 wire: " ++ field ++ " must be " ++ toString want ++ " B, got " ++ toString got
  | .timestamp got => "EH-2 wire: timestamp must be a non-negative safe integer, got " ++ toString got

/-! ## Primitives -/

def u64be (n : Time) : Except WireError Bytes :=
  if n < 0 ∨ (MAX_SAFE : Int) < n then .error (.timestamp n) else .ok (Bytes.u64be n.toNat)

def readU64be (b : Bytes) (off : Nat) : Except WireError Time :=
  let v := Bytes.getU64 b off
  if MAX_SAFE < v then .error .range else .ok v

def fixed (name : String) (v : Bytes) (len : Nat) : Except WireError Unit :=
  if v.length ≠ len then .error (.width name len v.length) else .ok ()

def header (b : Bytes) (want : UInt8) (name : String) : Except WireError Unit :=
  if b.length < 2 then .error (.truncatedHeader name)
  else if b.getD 0 0 ≠ want then .error (.wrongType name (b.getD 0 0))
  else if b.getD 1 0 ≠ EH2_VERSION then .error (.version name (b.getD 1 0))
  else .ok ()

def exact_ (b : Bytes) (off : Nat) (name : String) : Except WireError Unit :=
  if off ≠ b.length then .error (.trailing name (b.length - off)) else .ok ()

def slice (b : Bytes) (off len : Nat) (name : String) : Except WireError Bytes :=
  if b.length < off + len then .error (.truncated name) else .ok (Bytes.slice b off (off + len))

/-! ## msg1 and msg2 -/

/-- What sets msg1 and msg2 apart. -/
structure Layout where
  type : UInt8
  kemLen : Nat
  name : String
  kem : String
  tag : String

def Layout.field (L : Layout) (f : String) : String := L.name ++ "." ++ f

def msg1Layout : Layout := ⟨T_MSG1, MLKEM768_PK, "msg1", "pqPub", "initiatorTag"⟩
def msg2Layout : Layout := ⟨T_MSG2, MLKEM768_CT, "msg2", "pqCt", "macR"⟩

/-- msg1 with its `pqPub` and `initiatorTag`, or msg2 with its `pqCt` and `macR`. -/
structure Offer where
  ekPub : Bytes
  kem : Bytes
  ts : Time
  tag : Bytes
  deriving DecidableEq

def Offer.encode (L : Layout) (m : Offer) : Except WireError Bytes := do
  fixed (L.field "ekPub") m.ekPub X25519_PUB
  fixed (L.field L.kem) m.kem L.kemLen
  fixed (L.field L.tag) m.tag MAC
  let ts ← u64be m.ts
  return [L.type, EH2_VERSION] ++ (m.ekPub ++ (Bytes.u16be m.kem.length ++ (m.kem ++ (ts ++ m.tag))))

def Offer.decode (L : Layout) (b : Bytes) : Except WireError Offer := do
  header b L.type L.name
  let ekPub ← slice b 2 X25519_PUB (L.field "ekPub")
  let o := 2 + X25519_PUB
  refuse (b.length < o + 2) (.truncatedLength (L.field L.kem))
  let kemLen := Bytes.getU16 b o
  let o := o + 2
  refuse (kemLen ≠ L.kemLen) (.kemLength (L.field L.kem) L.kemLen kemLen)
  let kem ← slice b o kemLen (L.field L.kem)
  let o := o + kemLen
  refuse (b.length < o + TS) (.truncated (L.field "ts"))
  let ts ← readU64be b o
  let o := o + TS
  let tag ← slice b o MAC (L.field L.tag)
  exact_ b (o + MAC) L.name
  return ⟨ekPub, kem, ts, tag⟩

abbrev Msg1 := Offer
abbrev Msg2 := Offer

def encodeMsg1 : Msg1 → Except WireError Bytes := Offer.encode msg1Layout
def decodeMsg1 : Bytes → Except WireError Msg1 := Offer.decode msg1Layout
def encodeMsg2 : Msg2 → Except WireError Bytes := Offer.encode msg2Layout
def decodeMsg2 : Bytes → Except WireError Msg2 := Offer.decode msg2Layout

/-! ## msg3 -/

def encodeMsg3 (macI : Bytes) : Except WireError Bytes := do
  fixed "msg3.macI" macI MAC
  return [T_MSG3, EH2_VERSION] ++ macI

def decodeMsg3 (b : Bytes) : Except WireError Bytes := do
  header b T_MSG3 "msg3"
  let macI ← slice b 2 MAC "msg3.macI"
  exact_ b (2 + MAC) "msg3"
  return macI

/-! ## One encoding for each frame -/

theorem fixed_ok {name : String} {v : Bytes} {len : Nat} : fixed name v len = .ok () ↔ v.length = len := by
  simp [fixed]

theorem u64be_ok {n : Time} {b : Bytes} :
    u64be n = .ok b ↔ (0 ≤ n ∧ n ≤ (MAX_SAFE : Int)) ∧ Bytes.u64be n.toNat = b := by
  rw [u64be, guard_ok]
  simp

theorem readU64be_ok {b : Bytes} {off : Nat} {n : Time} :
    readU64be b off = .ok n ↔ Bytes.getU64 b off ≤ MAX_SAFE ∧ (Bytes.getU64 b off : Int) = n := by
  rw [readU64be, guard_ok]
  simp

theorem header_ok {b : Bytes} {want : UInt8} {name : String} :
    header b want name = .ok () ↔ 2 ≤ b.length ∧ b.getD 0 0 = want ∧ b.getD 1 0 = EH2_VERSION := by
  rw [header, guard_ok, guard_ok, guard_ok, not_lt, not_not, not_not]
  simp

theorem exact_ok {b : Bytes} {off : Nat} {name : String} : exact_ b off name = .ok () ↔ off = b.length := by
  simp [exact_]

theorem slice_ok {b v : Bytes} {off len : Nat} {name : String} :
    slice b off len name = .ok v ↔ off + len ≤ b.length ∧ Bytes.slice b off (off + len) = v := by
  rw [slice, guard_ok, not_lt, Except.ok.injEq]

theorem Offer.encode_ok {L : Layout} {m : Offer} {b : Bytes} : m.encode L = .ok b ↔
    m.ekPub.length = X25519_PUB ∧ m.kem.length = L.kemLen ∧ m.tag.length = MAC ∧ (0 ≤ m.ts ∧ m.ts ≤ (MAX_SAFE : Int)) ∧
      [L.type, EH2_VERSION] ++
        (m.ekPub ++ (Bytes.u16be m.kem.length ++ (m.kem ++ (Bytes.u64be m.ts.toNat ++ m.tag)))) = b := by
  simp only [encode, bind_ok, exists_unit, fixed_ok, u64be_ok, pure, Except.pure, Except.ok.injEq, and_assoc, exists_and_left, exists_eq_left']

/-- What a frame that decodes looks like. -/
structure Reads (L : Layout) (b : Bytes) (m : Offer) : Prop where
  type : b.getD 0 0 = L.type
  version : b.getD 1 0 = EH2_VERSION
  length : b.length = 2 + X25519_PUB + 2 + L.kemLen + TS + MAC
  kemLen : Bytes.getU16 b 34 = L.kemLen
  range : Bytes.getU64 b (36 + L.kemLen) ≤ MAX_SAFE
  offer : (⟨Bytes.slice b 2 34, Bytes.slice b 36 (36 + L.kemLen), Bytes.getU64 b (36 + L.kemLen),
    Bytes.slice b (44 + L.kemLen) (76 + L.kemLen)⟩ : Offer) = m

theorem Offer.decode_ok {L : Layout} {b : Bytes} {m : Offer} : decode L b = .ok m ↔ Reads L b m := by
  simp only [decode, bind_ok, exists_unit, header_ok, slice_ok, readU64be_ok, exact_ok, pure, Except.pure,
    Except.ok.injEq, X25519_PUB, TS, MAC]
  constructor
  · rintro ⟨⟨-, ht, hv⟩, ek, ⟨-, rfl⟩, -, hk, kem, ⟨-, rfl⟩, -, ts, ⟨hr, rfl⟩, tag, ⟨-, rfl⟩, hlen, rfl⟩
    have hk := not_not.mp (refuse_ok.mp hk)
    rw [hk] at hr hlen
    refine ⟨ht, hv, ?_, hk, ?_, ?_⟩
    · rw [← hlen, X25519_PUB, TS, MAC]
    · rwa [show 36 + L.kemLen = 2 + 32 + 2 + L.kemLen by omega]
    · rw [hk, show 36 + L.kemLen = 2 + 32 + 2 + L.kemLen by omega, show 44 + L.kemLen = 2 + 32 + 2 + L.kemLen + 8 by omega,
        show 76 + L.kemLen = 2 + 32 + 2 + L.kemLen + 8 + 32 by omega]
  · intro h
    have hlen := h.length
    rw [X25519_PUB, TS, MAC] at hlen
    have hk := h.kemLen
    rw [show (34 : Nat) = 2 + 32 by rfl] at hk
    have hr := h.range
    rw [show 36 + L.kemLen = 2 + 32 + 2 + L.kemLen by omega] at hr
    refine ⟨⟨by omega, h.type, h.version⟩, _, ⟨by omega, rfl⟩, refuse_ok.mpr (by omega), refuse_ok.mpr (not_not.mpr hk),
      _, ⟨by omega, rfl⟩, refuse_ok.mpr (by omega), _, ⟨by rwa [hk], rfl⟩, _, ⟨by omega, rfl⟩, by omega, ?_⟩
    rw [← h.offer, hk, show 36 + L.kemLen = 2 + 32 + 2 + L.kemLen by omega,
      show 44 + L.kemLen = 2 + 32 + 2 + L.kemLen + 8 by omega,
      show 76 + L.kemLen = 2 + 32 + 2 + L.kemLen + 8 + 32 by omega]

theorem head_two {b : Bytes} {x y : UInt8} (hlen : 2 ≤ b.length) (hx : b.getD 0 0 = x) (hy : b.getD 1 0 = y) :
    Bytes.slice b 0 2 = [x, y] := by
  match b, hlen with
  | p :: q :: _, _ =>
    cases hx
    cases hy
    rfl

/-- The bytes of a frame. -/
def layOut (type : UInt8) (ekPub kem : Bytes) (ts : Nat) (tag : Bytes) : Bytes :=
  [type, EH2_VERSION] ++ (ekPub ++ (Bytes.u16be kem.length ++ (kem ++ (Bytes.u64be ts ++ tag))))

/-- The fields of a frame, each at its place. -/
structure Framed (type : UInt8) (k : Nat) (b ekPub kem : Bytes) (ts : Nat) (tag : Bytes) : Prop where
  type : b.getD 0 0 = type
  version : b.getD 1 0 = EH2_VERSION
  length : b.length = 2 + X25519_PUB + 2 + k + TS + MAC
  kemLen : Bytes.getU16 b 34 = k
  ekPub : Bytes.slice b 2 34 = ekPub
  kem : Bytes.slice b 36 (36 + k) = kem
  ts : Bytes.getU64 b (36 + k) = ts
  tag : Bytes.slice b (44 + k) (76 + k) = tag

section
variable {type : UInt8} {k : Nat} {b ekPub kem tag : Bytes} {ts : Nat}

/-- The fields put together are the frame. -/
theorem Framed.layOut_eq (h : Framed type k b ekPub kem ts tag) :
    ekPub.length = X25519_PUB ∧ kem.length = k ∧ tag.length = MAC ∧ layOut type ekPub kem ts tag = b := by
  have hlen := h.length
  rw [X25519_PUB, TS, MAC] at hlen
  have hkem : kem.length = k := h.kem ▸ (Bytes.length_slice b (by omega) (by omega)).trans (by omega)
  have h16 : Bytes.u16be k = Bytes.slice b 34 36 := by
    conv_lhs => rw [← h.kemLen]
    exact Bytes.ofNat_toNat (Bytes.length_slice b (by omega) (by omega))
  have h64 : Bytes.u64be ts = Bytes.slice b (36 + k) (44 + k) := by
    rw [← h.ts, show 44 + k = 36 + k + 8 by omega]
    apply Bytes.ofNat_toNat
    rw [Bytes.length_slice b (by omega) (by omega)]
    omega
  refine ⟨?_, hkem, ?_, ?_⟩
  · exact h.ekPub ▸ Bytes.length_slice b (by omega) (by omega)
  · exact h.tag ▸ (Bytes.length_slice b (by omega) (by omega)).trans (by rw [MAC]; omega)
  · rw [layOut, hkem, h16, h64, ← h.ekPub, ← h.kem, ← h.tag, ← head_two (by omega) h.type h.version,
      Bytes.slice_append_slice b (by omega) (by omega), Bytes.slice_append_slice b (by omega) (by omega),
      Bytes.slice_append_slice b (by omega) (by omega), Bytes.slice_append_slice b (by omega) (by omega),
      Bytes.slice_append_slice b (by omega) (by omega)]
    rw [show 76 + k = b.length by omega, Bytes.slice_all]

theorem framed_layOut (hek : ekPub.length = X25519_PUB) (hkem : kem.length = k) (htag : tag.length = MAC) (hk : k < 2 ^ 16)
    (hts : ts < 2 ^ 64) : Framed type k (layOut type ekPub kem ts tag) ekPub kem ts tag := by
  rw [X25519_PUB] at hek
  rw [MAC] at htag
  unfold layOut
  constructor
  · rfl
  · rfl
  · simp [hek, hkem, htag, X25519_PUB, TS, MAC, Bytes.u64be]
    omega
  · rw [← List.append_assoc, Bytes.getU16_mid _ _ _ (by simp [hek]), hkem, Nat.mod_eq_of_lt hk]
  · exact Bytes.slice_mid [type, EH2_VERSION] _ _ rfl (by omega)
  · rw [← List.append_assoc, ← List.append_assoc]
    exact Bytes.slice_mid _ _ _ (by simp [hek]) (by omega)
  · rw [← List.append_assoc, ← List.append_assoc, ← List.append_assoc, Bytes.getU64_mid _ _ _ (by simp [hek, hkem]; omega),
      Nat.mod_eq_of_lt hts]
  · have hb : [type, EH2_VERSION] ++ (ekPub ++ (Bytes.u16be kem.length ++ (kem ++ (Bytes.u64be ts ++ tag)))) =
        ([type, EH2_VERSION] ++ (ekPub ++ (Bytes.u16be kem.length ++ (kem ++ Bytes.u64be ts)))) ++ (tag ++ []) := by
      simp
    rw [hb]
    exact Bytes.slice_mid _ _ _ (by simp [hek, hkem, Bytes.u64be]; omega) (by omega)

end

/-- A frame that decodes is the encoding of what it decodes to. -/
theorem Reads.encode {L : Layout} {b : Bytes} {m : Offer} (h : Reads L b m) : m.encode L = .ok b := by
  have hframed : Framed L.type L.kemLen b _ _ _ _ := ⟨h.type, h.version, h.length, h.kemLen, rfl, rfl, rfl, rfl⟩
  obtain ⟨hek, hkem, htag, hb⟩ := hframed.layOut_eq
  rw [← h.offer, Offer.encode_ok]
  exact ⟨hek, hkem, htag, ⟨Int.natCast_nonneg _, Int.ofNat_le.mpr h.range⟩, by rwa [Int.toNat_natCast]⟩

/-- What was encoded decodes to what it was. -/
theorem Reads.of_encode {L : Layout} {b : Bytes} {m : Offer} (hL : L.kemLen < 2 ^ 16) (h : m.encode L = .ok b) :
    Reads L b m := by
  obtain ⟨hek, hkem, htag, ⟨hts, hts'⟩, rfl⟩ := Offer.encode_ok.mp h
  have hmax : m.ts.toNat ≤ MAX_SAFE := Int.toNat_le.mpr hts'
  have hframed : Framed L.type L.kemLen _ _ _ _ _ := framed_layOut hek hkem htag hL (Nat.lt_of_le_of_lt hmax (by decide))
  refine ⟨hframed.type, hframed.version, hframed.length, hframed.kemLen, hframed.ts.le.trans hmax, ?_⟩
  obtain ⟨ekPub, kem, ts, tag⟩ := m
  simp only [Offer.mk.injEq]
  refine ⟨hframed.ekPub, hframed.kem, ?_, hframed.tag⟩
  exact (congrArg Nat.cast hframed.ts).trans (Int.toNat_of_nonneg hts)

theorem decodeMsg1_ok {b : Bytes} {m : Msg1} : decodeMsg1 b = .ok m ↔ encodeMsg1 m = .ok b :=
  Offer.decode_ok.trans ⟨Reads.encode, Reads.of_encode (by decide)⟩

theorem decodeMsg2_ok {b : Bytes} {m : Msg2} : decodeMsg2 b = .ok m ↔ encodeMsg2 m = .ok b :=
  Offer.decode_ok.trans ⟨Reads.encode, Reads.of_encode (by decide)⟩

theorem encodeMsg3_ok {b macI : Bytes} :
    encodeMsg3 macI = .ok b ↔ macI.length = MAC ∧ [T_MSG3, EH2_VERSION] ++ macI = b := by
  simp only [encodeMsg3, bind_ok, exists_unit, fixed_ok, pure, Except.pure, Except.ok.injEq]

theorem decodeMsg3_ok {b macI : Bytes} : decodeMsg3 b = .ok macI ↔ encodeMsg3 macI = .ok b := by
  rw [encodeMsg3_ok]
  simp only [decodeMsg3, bind_ok, exists_unit, header_ok, slice_ok, exact_ok, pure, Except.pure, Except.ok.injEq]
  constructor
  · rintro ⟨⟨h2, ht, hv⟩, _, ⟨-, rfl⟩, hlen, rfl⟩
    refine ⟨(Bytes.length_slice b (by omega) (by omega)).trans (by omega), ?_⟩
    rw [← head_two h2 ht hv, Bytes.slice_append_slice b (by omega) (by omega), hlen, Bytes.slice_all]
  · rintro ⟨hlen, rfl⟩
    refine ⟨⟨by simp, rfl, rfl⟩, _, ⟨?_, rfl⟩, ?_, ?_⟩
    · simp [hlen, MAC]
    · simp [hlen, MAC]
    · simp [Bytes.slice, ← hlen]

end EncedoChat.Handshake
