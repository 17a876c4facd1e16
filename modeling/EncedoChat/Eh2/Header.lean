import EncedoChat.Lib.Bytes

/-!
# The ratchet header on the wire

`encodeHeader` and `decodeHeader` of `eh2/ratchet.ts`. The whole header is the associated data of
the frame's AEAD.
-/

namespace EncedoChat.Eh2

/-- A raw X25519 public key: 32 bytes. -/
abbrev Pub := {b : Bytes // b.length = 32}

def T_DATA : UInt8 := 0x10
/-- A content frame whose header also carries ML-KEM material. -/
def T_DATA_PQ : UInt8 := 0x11
def VERSION : UInt8 := 3
def HDR_LEN : Nat := 2 + 32 + 4 + 4
def PQ_CT : UInt8 := 0x01
def PQ_PUB : UInt8 := 0x02

structure Header where
  dhPub : Pub
  pn : Nat
  n : Nat
  pqCt : Option Bytes
  pqPub : Option Bytes
  deriving DecidableEq

/-- `u16be len ‖ field` of a field that is present, nothing otherwise. -/
def encodeField : Option Bytes → Bytes
  | none => []
  | some f => Bytes.u16be f.length ++ f

def encodeFlags (h : Header) : UInt8 :=
  (if h.pqCt.isSome then PQ_CT else 0) ||| (if h.pqPub.isSome then PQ_PUB else 0)

def encodeHeader (h : Header) : Bytes :=
  let pq := h.pqCt.isSome || h.pqPub.isSome
  [if pq then T_DATA_PQ else T_DATA, VERSION] ++ (h.dhPub.1 ++ (Bytes.u32be h.pn ++ (Bytes.u32be h.n ++
    if pq then [encodeFlags h] ++ (encodeField h.pqCt ++ encodeField h.pqPub) else [])))

/-- One turn of the field loop: the field `which` if its flag is set, and where the next one starts. -/
def decodeField (frame : Bytes) (flags which : UInt8) (o : Nat) : Option (Option Bytes × Nat) :=
  if flags &&& which = 0 then some (none, o)
  else if o + 2 > frame.length then none
  else
    let n := Bytes.getU16 frame o
    let o := o + 2
    if n = 0 ∨ o + n > frame.length then none
    else some (some (Bytes.slice frame o (o + n)), o + n)

def decodeHeader (frame : Bytes) : Option (Header × Nat) :=
  if hlen : frame.length < HDR_LEN + 16 then none -- 16: the shortest GCM tag
  else if frame.getD 1 0 ≠ VERSION then none
  else
    let dhPub : Pub := ⟨Bytes.slice frame 2 34, Bytes.length_slice _ (by decide)
      (by simp only [HDR_LEN] at hlen; omega)⟩
    let h : Header := ⟨dhPub, Bytes.getU32 frame 34, Bytes.getU32 frame 38, none, none⟩
    if frame.getD 0 0 = T_DATA then some (h, HDR_LEN)
    else if frame.getD 0 0 ≠ T_DATA_PQ then none
    else
      let flags := frame.getD 42 0
      if flags = 0 ∨ flags &&& ~~~(PQ_CT ||| PQ_PUB) ≠ 0 then none
      else
        match decodeField frame flags PQ_CT 43 with
        | none => none
        | some (pqCt, o) =>
          match decodeField frame flags PQ_PUB o with
          | none => none
          | some (pqPub, o) =>
            if frame.length < o + 16 then none
            else some ({ h with pqCt := pqCt, pqPub := pqPub }, o)

/-! ## Reading back what was written -/

/-- A field the two-byte length can carry and the decoder does not refuse as empty. -/
def FieldOk (f : Option Bytes) : Prop := ∀ b, f = some b → 0 < b.length ∧ b.length < 2 ^ 16

/-- A header whose ML-KEM fields fit the wire. -/
structure Header.Fits (h : Header) : Prop where
  pqCt : FieldOk h.pqCt
  pqPub : FieldOk h.pqPub

/-- What the wire keeps of a header: the counters modulo `2 ^ 32`. -/
def Header.wire (h : Header) : Header := { h with pn := h.pn % 2 ^ 32, n := h.n % 2 ^ 32 }

theorem fieldOk_none : FieldOk none := fun _ h => by cases h

theorem decodeField_absent (frame : Bytes) {flags which : UInt8} (o : Nat) (h : flags &&& which = 0) :
    decodeField frame flags which o = some (none, o) := by
  rw [decodeField, if_pos h]

theorem decodeField_present (a c : Bytes) {b : Bytes} {flags which : UInt8} {o : Nat}
    (ha : a.length = o) (hb : FieldOk (some b)) (h : ¬flags &&& which = 0) :
    decodeField (a ++ (encodeField (some b) ++ c)) flags which o
      = some (some b, o + (encodeField (some b)).length) := by
  obtain ⟨hpos, hlt⟩ := hb b rfl
  have hlen : Bytes.getU16 (a ++ (encodeField (some b) ++ c)) o = b.length := by
    rw [encodeField, List.append_assoc, Bytes.getU16_mid a _ _ ha, Nat.mod_eq_of_lt hlt]
  have hbody : Bytes.slice (a ++ (encodeField (some b) ++ c)) (o + 2) (o + 2 + b.length) = b := by
    rw [encodeField, List.append_assoc, ← List.append_assoc a]
    exact Bytes.slice_mid _ _ _ (by simp [ha]) rfl
  have htotal : (a ++ (encodeField (some b) ++ c)).length = o + 2 + b.length + c.length := by
    simp [encodeField, ha]; omega
  rw [decodeField, if_neg h, if_neg (by omega)]
  simp only [hlen, hbody, htotal]
  rw [if_neg (by omega)]
  simp [encodeField]; omega

theorem decodeField_encode (a c : Bytes) {f : Option Bytes} {flags which : UInt8} {o : Nat}
    (ha : a.length = o) (hf : FieldOk f) (h : flags &&& which = 0 ↔ f = none) :
    decodeField (a ++ (encodeField f ++ c)) flags which o = some (f, o + (encodeField f).length) := by
  cases f with
  | none => simpa [encodeField] using decodeField_absent _ o (h.mpr rfl)
  | some b => exact decodeField_present a c ha hf (fun h' => by simpa using h.mp h')

theorem length_encodeHeader_ge (h : Header) : HDR_LEN ≤ (encodeHeader h).length := by
  simp only [encodeHeader, HDR_LEN, List.length_append, Bytes.length_u32be, h.dhPub.2,
    List.length_cons, List.length_nil]
  omega

private theorem flags_ct (h : Header) : encodeFlags h &&& PQ_CT = 0 ↔ h.pqCt = none := by
  cases hc : h.pqCt <;> cases hp : h.pqPub <;> simp [encodeFlags, hc, hp] <;> decide

private theorem flags_pub (h : Header) : encodeFlags h &&& PQ_PUB = 0 ↔ h.pqPub = none := by
  cases hc : h.pqCt <;> cases hp : h.pqPub <;> simp [encodeFlags, hc, hp] <;> decide

private theorem flags_ok (h : Header) (hpq : (h.pqCt.isSome || h.pqPub.isSome) = true) :
    ¬(encodeFlags h = 0 ∨ encodeFlags h &&& ~~~(PQ_CT ||| PQ_PUB) ≠ 0) := by
  cases hc : h.pqCt <;> cases hp : h.pqPub
  · simp [hc, hp] at hpq
  all_goals simp only [encodeFlags, hc, hp, Option.isSome_none, Option.isSome_some]; decide

/-- The decoder reads an encoded header back, whatever ciphertext of at least a tag follows it. -/
theorem decodeHeader_encodeHeader {h : Header} (hf : h.Fits) {ct : Bytes} (hct : 16 ≤ ct.length) :
    decodeHeader (encodeHeader h ++ ct) = some (h.wire, (encodeHeader h).length) := by
  have hge := length_encodeHeader_ge h
  have hlen : ¬(encodeHeader h ++ ct).length < HDR_LEN + 16 := by
    rw [List.length_append]; omega
  set pq := h.pqCt.isSome || h.pqPub.isSome with hpq
  set tail : Bytes := if pq then [encodeFlags h] ++ (encodeField h.pqCt ++ encodeField h.pqPub) else []
    with htail
  set start : Bytes := [if pq then T_DATA_PQ else T_DATA, VERSION] with hstart
  have hframe : encodeHeader h ++ ct
      = start ++ (h.dhPub.1 ++ (Bytes.u32be h.pn ++ (Bytes.u32be h.n ++ (tail ++ ct)))) := by
    simp only [encodeHeader, List.append_assoc, htail, hstart, hpq]
  have hdh : Bytes.slice (encodeHeader h ++ ct) 2 34 = h.dhPub.1 := by
    rw [hframe]
    exact Bytes.slice_mid start _ _ rfl (by rw [h.dhPub.2])
  have hpn : Bytes.getU32 (encodeHeader h ++ ct) 34 = h.pn % 2 ^ 32 := by
    rw [hframe, ← List.append_assoc]
    exact Bytes.getU32_mid _ _ _ (by simp [hstart, h.dhPub.2])
  have hn : Bytes.getU32 (encodeHeader h ++ ct) 38 = h.n % 2 ^ 32 := by
    rw [hframe, ← List.append_assoc, ← List.append_assoc]
    exact Bytes.getU32_mid _ _ _ (by simp [hstart, h.dhPub.2])
  have h0 : (encodeHeader h ++ ct).getD 0 0 = if pq then T_DATA_PQ else T_DATA := by rw [hframe]; rfl
  have h1 : (encodeHeader h ++ ct).getD 1 0 = VERSION := by rw [hframe]; rfl
  have hwire : (⟨⟨Bytes.slice (encodeHeader h ++ ct) 2 34, by rw [hdh]; exact h.dhPub.2⟩,
      h.pn % 2 ^ 32, h.n % 2 ^ 32, h.pqCt, h.pqPub⟩ : Header) = h.wire := by
    simp only [hdh, Header.wire]
  unfold decodeHeader
  rw [dif_neg hlen, if_neg (by rw [h1]; simp)]
  simp only [h0, hpn, hn]
  cases hq : pq with
  | false =>
      have hcn : h.pqCt = none := by cases hc : h.pqCt <;> simp_all
      have hpn' : h.pqPub = none := by cases hp : h.pqPub <;> simp_all
      have hl : (encodeHeader h).length = HDR_LEN := by
        simp [encodeHeader, hcn, hpn', HDR_LEN, h.dhPub.2]
      rw [hcn, hpn'] at hwire
      simp [hl, ← hwire]
  | true =>
      -- the prefix of 43 bytes up to and including the flags
      set base : Bytes := start ++ (h.dhPub.1 ++ (Bytes.u32be h.pn ++ Bytes.u32be h.n)) with hbase
      have hbl : base.length = 42 := by simp [hbase, hstart, h.dhPub.2]
      have hfr : encodeHeader h ++ ct = (base ++ [encodeFlags h]) ++
          (encodeField h.pqCt ++ (encodeField h.pqPub ++ ct)) := by
        rw [hframe, htail, hq]; simp [hbase]
      have hflags : (encodeHeader h ++ ct).getD 42 0 = encodeFlags h := by
        rw [hfr]; simp [List.getD_eq_getElem?_getD, hbl]
      have hl : (encodeHeader h).length
          = 43 + (encodeField h.pqCt).length + (encodeField h.pqPub).length := by
        have := congrArg List.length hfr
        simp only [List.length_append, hbl, List.length_singleton] at this
        omega
      have hct' : decodeField (encodeHeader h ++ ct) (encodeFlags h) PQ_CT 43
          = some (h.pqCt, 43 + (encodeField h.pqCt).length) := by
        rw [hfr]; exact decodeField_encode _ _ (by simp [hbl]) hf.pqCt (flags_ct h)
      have hpub' : decodeField (encodeHeader h ++ ct) (encodeFlags h) PQ_PUB
          (43 + (encodeField h.pqCt).length) = some (h.pqPub, (encodeHeader h).length) := by
        rw [hfr, ← List.append_assoc, hl]
        exact decodeField_encode _ _ (by simp [hbl]; omega) hf.pqPub (flags_pub h)
      have hne : T_DATA_PQ ≠ T_DATA := by decide
      have hok := flags_ok h (by rw [← hpq, hq])
      simp only [hflags, hct', hpub', if_true, if_neg hne, ne_eq, not_true_eq_false, if_false,
        if_neg hok]
      rw [if_neg (by rw [List.length_append]; omega), hwire]

/-- A decoded header leaves at least a tag's worth of ciphertext. -/
theorem decodeHeader_length {frame : Bytes} {h : Header} {len : Nat}
    (hd : decodeHeader frame = some (h, len)) : len + 16 ≤ frame.length := by
  unfold decodeHeader at hd
  split at hd
  · cases hd
  rename_i hlen
  split at hd
  · cases hd
  dsimp only at hd
  split at hd
  · cases hd; omega
  split at hd
  · cases hd
  split at hd
  · cases hd
  split at hd
  · cases hd
  split at hd
  · cases hd
  split at hd
  · cases hd
  · cases hd; omega

/-- A frame whose header bytes are those of `h` decodes to `h`: the header is determined by the
associated data alone. -/
theorem decodeHeader_of_take {frame : Bytes} {h h' : Header} {len : Nat} (hf : h.Fits)
    (hd : decodeHeader frame = some (h', len)) (ht : frame.take len = encodeHeader h) :
    h' = h.wire := by
  have hl := decodeHeader_length hd
  have hsplit : frame = encodeHeader h ++ frame.drop len := by rw [← ht, List.take_append_drop]
  have hct : 16 ≤ (frame.drop len).length := by rw [List.length_drop]; omega
  have hr := decodeHeader_encodeHeader hf hct
  rw [← hsplit, hd] at hr
  exact (Prod.mk.inj (Option.some.inj hr)).1

end EncedoChat.Eh2
