import EncedoChat.Lib.Buffer
import EncedoChat.Lib.Utf8
import Mathlib.Data.UInt

/-!
# A knock

The codec of `lib/knock.ts`: the plaintext with its fixed places, the text that is cut to its budget of bytes, and the
frame that is sealed to the key of an invite. WebCrypto is a parameter; what throws gives nothing.
-/

namespace EncedoChat.Inbox

open Buffer (zeros put poke peek sub Outside)
open Utf8 (encode decode mark)

def LABEL : String := "encedo-chat-invite-knock-v2"

def NAME_MAX : Nat := 64
def NOTE_MAX : Nat := 200
def IK_LEN : Nat := 32
def EPH_LEN : Nat := 32
def TAG_LEN : Nat := 16
def KEY_LEN : Nat := 32
def NONCE_LEN : Nat := 12

def PLAIN_LEN : Nat := 1 + IK_LEN + 1 + NAME_MAX + 2 + NOTE_MAX
def FRAME_LEN : Nat := EPH_LEN + PLAIN_LEN + TAG_LEN

def KIND_DECOY : UInt8 := 0x00
def KIND_REAL : UInt8 := 0x01

inductive Knock where
  | decoy
  | real (ik : Bytes) (name note : List Char)
  deriving DecidableEq

/-- A `Dh` of `lib/x25519.ts`. -/
structure Dh where
  pub : Bytes
  dh : Bytes → Option Bytes

/-- `kdf` of `lib/wc.ts`, and AES-GCM under a key and a nonce. -/
structure Crypto where
  kdf : String → Bytes → Bytes → Nat → Bytes
  encrypt : Bytes → Bytes → Bytes → Bytes
  decrypt : Bytes → Bytes → Bytes → Option Bytes

/-! ## The plaintext -/

/-- The loop of `fitBytes`, over the characters from the last on. -/
def popTo (max : Nat) : List Char → Bytes
  | [] => []
  | c :: chars =>
    let out := encode (c :: chars).reverse
    if max < out.length then popTo max chars else out

def fitBytes (s : List Char) (max : Nat) : Bytes :=
  let out := encode s
  if out.length ≤ max then out else popTo max s.reverse

def pack (kind : UInt8) (ik : Bytes) (name note : List Char) : Option Bytes := do
  let p := poke (zeros PLAIN_LEN) 0 kind
  let p ← if ik.length = IK_LEN then put p 1 ik else some p
  let n := fitBytes name NAME_MAX
  let p := poke p (1 + IK_LEN) (UInt8.ofNat n.length)
  let p ← put p (2 + IK_LEN) n
  let t := fitBytes note NOTE_MAX
  let at_ := 2 + IK_LEN + NAME_MAX
  let p := poke p at_ (UInt8.ofNat (t.length / 256 % 256))
  let p := poke p (at_ + 1) (UInt8.ofNat (t.length % 256))
  put p (at_ + 2) t

def unpack (p : Bytes) : Except Outside (Option Knock) := do
  if p.length ≠ PLAIN_LEN then return none
  let kind ← peek p 0
  if kind = KIND_DECOY then return some .decoy
  if kind ≠ KIND_REAL then return none
  let nameLen := (← peek p (1 + IK_LEN)).toNat
  let at_ := 2 + IK_LEN + NAME_MAX
  let noteLen := (← peek p at_).toNat * 256 + (← peek p (at_ + 1)).toNat
  if nameLen > NAME_MAX ∨ noteLen > NOTE_MAX then return none
  let ik ← sub p 1 (1 + IK_LEN)
  let name ← sub p (2 + IK_LEN) (2 + IK_LEN + nameLen)
  let note ← sub p (at_ + 2) (at_ + 2 + noteLen)
  return some (.real ik (decode name) (decode note))

/-! ## The frame -/

namespace Crypto

variable (W : Crypto)

def frameKey (shared inbox : Bytes) : Bytes × Bytes :=
  let bits := W.kdf LABEL shared inbox (KEY_LEN + NONCE_LEN)
  (bits.take KEY_LEN, bits.drop KEY_LEN)

def sealTo (inbox toPub plain : Bytes) (eph : Dh) : Option Bytes := do
  let k := W.frameKey (← eph.dh toPub) inbox
  let ct := W.encrypt k.1 k.2 plain
  let out ← put (zeros FRAME_LEN) 0 eph.pub
  put out EPH_LEN ct

def sealKnock (inbox invitePub ik : Bytes) (name : List Char) (note : Option (List Char)) (eph : Dh) : Option Bytes := do
  W.sealTo inbox invitePub (← pack KIND_REAL ik name (note.getD [])) eph

def decoyKnock (inbox invitePub : Bytes) (eph : Dh) : Option Bytes := do
  W.sealTo inbox invitePub (← pack KIND_DECOY (zeros IK_LEN) [] []) eph

/-- The text of a frame, where it opens. -/
def openPlain (inbox : Bytes) (key : Dh) (frame : Bytes) : Option Bytes := do
  let k := W.frameKey (← key.dh (frame.take EPH_LEN)) inbox
  W.decrypt k.1 k.2 (frame.drop EPH_LEN)

def openKnock (inbox : Bytes) (key : Dh) (frame : Bytes) : Option Knock :=
  if frame.length ≠ FRAME_LEN then none
  else
    match W.openPlain inbox key frame with
    | none => none
    | some plain =>
      match unpack plain with
      | .ok k => k
      | .error _ => none

end Crypto

/-! ## What is cut -/

theorem popTo_longest (max : Nat) (chars : List Char) :
    ∃ p, Utf8.Longest max chars.reverse p ∧ popTo max chars = encode p := by
  induction chars with
  | nil => exact ⟨[], .self (Nat.zero_le _), rfl⟩
  | cons c chars ih =>
      obtain ⟨p, hp, heq⟩ := ih
      rw [popTo, List.reverse_cons]
      split
      · exact ⟨p, hp.snoc ‹_›, heq⟩
      · exact ⟨_, .self (by omega), rfl⟩

theorem fitBytes_longest (s : List Char) (max : Nat) : ∃ p, Utf8.Longest max s p ∧ fitBytes s max = encode p := by
  rw [fitBytes]
  split
  · exact ⟨s, .self ‹_›, rfl⟩
  · obtain ⟨p, hp, heq⟩ := popTo_longest max s.reverse
    exact ⟨p, by rwa [List.reverse_reverse] at hp, heq⟩

theorem length_fitBytes (s : List Char) (max : Nat) : (fitBytes s max).length ≤ max := by
  obtain ⟨p, hp, heq⟩ := fitBytes_longest s max
  rw [heq]
  exact hp.fits

/-! ## The places of the plaintext -/

/-- A field and the zeros up to its end. -/
def field (n : Nat) (b : Bytes) : Bytes := b ++ zeros (n - b.length)

/-- What `pack` writes, in the order of the places. -/
def layout (kind : UInt8) (ik n t : Bytes) : Bytes :=
  kind :: (ik ++ UInt8.ofNat n.length :: (field NAME_MAX n ++
    UInt8.ofNat (t.length / 256 % 256) :: UInt8.ofNat (t.length % 256) :: field NOTE_MAX t))

theorem length_field {n : Nat} {b : Bytes} (h : b.length ≤ n) : (field n b).length = n := by
  rw [field, List.length_append, Buffer.length_zeros]
  omega

theorem pack_eq (kind : UInt8) {ik : Bytes} (hik : ik.length = IK_LEN) (name note : List Char) :
    pack kind ik name note = some (layout kind ik (fitBytes name NAME_MAX) (fitBytes note NOTE_MAX)) := by
  have hn := length_fitBytes name NAME_MAX
  have ht := length_fitBytes note NOTE_MAX
  rw [layout, pack]
  generalize fitBytes name NAME_MAX = n at hn ⊢
  generalize fitBytes note NOTE_MAX = t at ht ⊢
  simp only [IK_LEN, NAME_MAX, NOTE_MAX, PLAIN_LEN] at hik hn ht ⊢
  have h₀ : poke (zeros 300) 0 kind = [kind] ++ zeros 299 :=
    Buffer.poke_next (a := []) (i := 0) (k := 300) kind rfl (by decide)
  have h₁ : put ([kind] ++ zeros 299) 1 ik = some (([kind] ++ ik) ++ zeros (299 - ik.length)) :=
    Buffer.put_next rfl (by omega)
  have h₂ := Buffer.poke_next (a := [kind] ++ ik) (i := 33) (k := 299 - ik.length) (UInt8.ofNat n.length)
    (by simp [hik]) (by omega)
  have h₃ := Buffer.put_next (a := ([kind] ++ ik) ++ [UInt8.ofNat n.length]) (i := 34) (v := n)
    (k := 299 - ik.length - 1) (by simp [hik]) (by omega)
  have h₄ := Buffer.poke_zeros (a := (([kind] ++ ik) ++ [UInt8.ofNat n.length]) ++ n) (g := 64 - n.length) (i := 98)
    (k := 299 - ik.length - 1 - n.length) (UInt8.ofNat (t.length / 256 % 256))
    (by simp only [List.length_append, List.length_singleton, hik]; omega) (by omega)
  have hrest : 299 - ik.length - 1 - n.length - (64 - n.length + 1) = 201 := by omega
  rw [hrest] at h₄
  have h₅ := Buffer.poke_next (i := 99) (k := 201) (UInt8.ofNat (t.length % 256))
    (a := (((([kind] ++ ik) ++ [UInt8.ofNat n.length]) ++ n) ++ zeros (64 - n.length)) ++
      [UInt8.ofNat (t.length / 256 % 256)])
    (by simp only [List.length_append, List.length_singleton, Buffer.length_zeros, hik]; omega) (by decide)
  have h₆ := Buffer.put_next (i := 100) (k := 201 - 1) (v := t)
    (a := ((((([kind] ++ ik) ++ [UInt8.ofNat n.length]) ++ n) ++ zeros (64 - n.length)) ++
      [UInt8.ofNat (t.length / 256 % 256)]) ++ [UInt8.ofNat (t.length % 256)])
    (by simp only [List.length_append, List.length_singleton, Buffer.length_zeros, hik]; omega) (by omega)
  simp only [hik, Nat.reduceSub] at h₁ h₂ h₃ h₄ h₅ h₆
  simp only [Nat.reduceAdd, h₀, hik, ↓reduceIte, h₁, h₂, h₃, h₄, h₅, h₆, Option.bind_eq_bind, Option.bind_some, field]
  simp only [List.append_assoc, List.cons_append, List.nil_append]

variable {ik n t : Bytes}

theorem length_layout (kind : UInt8) (hik : ik.length = IK_LEN) (hn : n.length ≤ NAME_MAX) (ht : t.length ≤ NOTE_MAX) :
    (layout kind ik n t).length = PLAIN_LEN := by
  simp only [layout, List.length_cons, List.length_append, hik, length_field hn, length_field ht]
  rfl

theorem unpack_layout (kind : UInt8) (hik : ik.length = IK_LEN) (hn : n.length ≤ NAME_MAX) (ht : t.length ≤ NOTE_MAX) :
    unpack (layout kind ik n t) = .ok (if kind = KIND_DECOY then some .decoy
      else if kind = KIND_REAL then some (.real ik (decode n) (decode t)) else none) := by
  have hlen := length_layout kind hik hn ht
  have hfield := length_field hn
  simp only [IK_LEN, NAME_MAX, NOTE_MAX] at hik hn ht hfield
  have hname : peek (layout kind ik n t) 33 = .ok (UInt8.ofNat n.length) :=
    Buffer.peek_mid (kind :: ik) _ _ (by simp [hik])
  have hhi : peek (layout kind ik n t) 98 = .ok (UInt8.ofNat (t.length / 256 % 256)) := by
    have := Buffer.peek_mid (i := 98) (kind :: (ik ++ UInt8.ofNat n.length :: field 64 n))
      (UInt8.ofNat (t.length % 256) :: field 200 t) (UInt8.ofNat (t.length / 256 % 256)) (by simp [hik, hfield])
    simpa [layout, NAME_MAX, NOTE_MAX] using this
  have hlo : peek (layout kind ik n t) 99 = .ok (UInt8.ofNat (t.length % 256)) := by
    have := Buffer.peek_mid (i := 99) (kind :: (ik ++ UInt8.ofNat n.length ::
      (field 64 n ++ [UInt8.ofNat (t.length / 256 % 256)]))) (field 200 t) (UInt8.ofNat (t.length % 256))
      (by simp [hik, hfield])
    simpa [layout, NAME_MAX, NOTE_MAX] using this
  have hsik : sub (layout kind ik n t) 1 33 = .ok ik := Buffer.sub_mid [kind] _ rfl (by rw [hik])
  have hsn : sub (layout kind ik n t) 34 (34 + n.length) = .ok n := by
    have := Buffer.sub_mid (i := 34) (j := 34 + n.length) (v := n) (kind :: (ik ++ [UInt8.ofNat n.length]))
      (zeros (64 - n.length) ++ UInt8.ofNat (t.length / 256 % 256) :: UInt8.ofNat (t.length % 256) :: field 200 t)
      (by simp [hik]) rfl
    simpa [layout, NAME_MAX, NOTE_MAX, field] using this
  have hst : sub (layout kind ik n t) 100 (100 + t.length) = .ok t := by
    have := Buffer.sub_mid (i := 100) (j := 100 + t.length) (v := t)
      (kind :: (ik ++ UInt8.ofNat n.length :: (field 64 n ++
        [UInt8.ofNat (t.length / 256 % 256), UInt8.ofNat (t.length % 256)]))) (zeros (200 - t.length))
      (by simp [hik, hfield]) rfl
    simpa [layout, NAME_MAX, NOTE_MAX, field] using this
  have hkind : peek (layout kind ik n t) 0 = .ok kind := rfl
  have hnameLen : (UInt8.ofNat n.length).toNat = n.length := UInt8.toNat_ofNat_of_lt' (show n.length < 256 by omega)
  have hnoteLen : (UInt8.ofNat (t.length / 256 % 256)).toNat * 256 + (UInt8.ofNat (t.length % 256)).toNat = t.length := by
    rw [UInt8.toNat_ofNat', UInt8.toNat_ofNat']
    omega
  have hfits : ¬(n.length > 64 ∨ t.length > 200) := by omega
  unfold unpack
  simp only [hlen, hkind, IK_LEN, NAME_MAX, NOTE_MAX, Nat.reduceAdd, hname, hhi, hlo, hnameLen, hnoteLen, hsik, hsn, hst,
    hfits, ne_eq, not_true_eq_false, ↓reduceIte, bind, Except.bind, pure, Except.pure]
  split
  · rfl
  · split <;> simp_all

/-- No read of `unpack` is outside of the plaintext. -/
theorem unpack_total (p : Bytes) : ∃ k, unpack p = .ok k := by
  unfold unpack
  by_cases hlen : p.length = PLAIN_LEN
  · simp only [PLAIN_LEN, IK_LEN, NAME_MAX, NOTE_MAX, Nat.reduceAdd] at hlen
    obtain ⟨kind, hkind⟩ : ∃ x, peek p 0 = .ok x := ⟨_, Buffer.peek_ok (by omega)⟩
    obtain ⟨nameLen, hname⟩ : ∃ x, peek p 33 = .ok x := ⟨_, Buffer.peek_ok (by omega)⟩
    obtain ⟨hi, hhi⟩ : ∃ x, peek p 98 = .ok x := ⟨_, Buffer.peek_ok (by omega)⟩
    obtain ⟨lo, hlo⟩ : ∃ x, peek p 99 = .ok x := ⟨_, Buffer.peek_ok (by omega)⟩
    have hik : sub p 1 33 = .ok (p.slice 1 33) := Buffer.sub_ok (by decide) (by omega)
    simp only [hlen, hkind, hname, hhi, hlo, hik, PLAIN_LEN, IK_LEN, NAME_MAX, NOTE_MAX, Nat.reduceAdd, ne_eq,
      not_true_eq_false, ↓reduceIte, bind, Except.bind, pure, Except.pure]
    split
    · exact ⟨_, rfl⟩
    · split
      · exact ⟨_, rfl⟩
      · split
        · exact ⟨_, rfl⟩
        · rw [Buffer.sub_ok (by omega) (by omega)]
          dsimp only
          rw [Buffer.sub_ok (by omega) (by omega)]
          exact ⟨_, rfl⟩
  · exact ⟨none, by simp [hlen, pure, Except.pure]⟩

/-! ## Frames -/

/-- Two keys agree on a secret: raw keys of 32 bytes, and neither side throws. -/
structure Dh.Agrees (a b : Dh) : Prop where
  pub : a.pub.length = EPH_LEN
  secret : ∃ s, a.dh b.pub = some s ∧ b.dh a.pub = some s

/-- What is relied on of AES-GCM: the length of a sealed text, that it opens, and that it opens to no other text. -/
structure Crypto.Ideal (W : Crypto) : Prop where
  length_encrypt : ∀ k n p, (W.encrypt k n p).length = p.length + TAG_LEN
  opens : ∀ k n p, W.decrypt k n (W.encrypt k n p) = some p
  own : ∀ {k n k' n' p q}, W.decrypt k n (W.encrypt k' n' p) = some q → q = p

namespace Crypto

variable {W : Crypto} {inbox toPub plain frame : Bytes} {eph key : Dh}

theorem length_sealTo (h : W.sealTo inbox toPub plain eph = some frame) : frame.length = FRAME_LEN := by
  simp only [sealTo, Option.bind_eq_bind, Option.bind_eq_some_iff] at h
  obtain ⟨s, -, out, hout, h⟩ := h
  rw [Buffer.length_put h, Buffer.length_put hout, Buffer.length_zeros]

theorem sealTo_eq (inbox : Bytes) (hW : W.Ideal) {s : Bytes} (hpub : eph.pub.length = EPH_LEN) (hdh : eph.dh toPub = some s)
    (hplain : plain.length = PLAIN_LEN) :
    W.sealTo inbox toPub plain eph = some (eph.pub ++ W.encrypt (W.frameKey s inbox).1 (W.frameKey s inbox).2 plain) := by
  have hct := hW.length_encrypt (W.frameKey s inbox).1 (W.frameKey s inbox).2 plain
  simp only [hdh, sealTo, Option.bind_eq_bind, Option.bind_some]
  generalize W.encrypt (W.frameKey s inbox).1 (W.frameKey s inbox).2 plain = ct at hct ⊢
  have hlen : ct.length = FRAME_LEN - EPH_LEN := by rw [hct, hplain]; rfl
  have h₁ := Buffer.put_next (a := []) (i := 0) (k := FRAME_LEN) (v := eph.pub) rfl (by rw [hpub]; decide)
  have h₂ := Buffer.put_next (a := eph.pub) (i := EPH_LEN) (k := FRAME_LEN - EPH_LEN) (v := ct) hpub.symm (by omega)
  rw [List.nil_append, List.nil_append, hpub] at h₁
  rw [h₁, Option.bind_some, h₂, hlen, Nat.sub_self, Buffer.zeros_zero, List.append_nil]

/-- What a key makes of a frame that was sealed. -/
theorem openPlain_append {ct : Bytes} (hpub : eph.pub.length = EPH_LEN) :
    W.openPlain inbox key (eph.pub ++ ct) =
      (key.dh eph.pub).bind fun s => W.decrypt (W.frameKey s inbox).1 (W.frameKey s inbox).2 ct := by
  rw [openPlain, ← hpub, List.take_left' rfl, List.drop_left' rfl]
  rfl

theorem openKnock_of_plain {k : Option Knock} (hlen : frame.length = FRAME_LEN)
    (hplain : W.openPlain inbox key frame = some plain) (hk : unpack plain = .ok k) :
    W.openKnock inbox key frame = k := by
  simp only [openKnock, hlen, ne_eq, not_true_eq_false, ↓reduceIte, hplain, hk]

/-- A sealed plaintext, and what opening it gives. -/
theorem openKnock_sealTo (inbox : Bytes) (hW : W.Ideal) (h : eph.Agrees key) {k : Option Knock}
    (hplain : plain.length = PLAIN_LEN) (hk : unpack plain = .ok k) : ∃ frame, W.sealTo inbox key.pub plain eph = some frame ∧ frame.length = FRAME_LEN ∧
      W.openKnock inbox key frame = k ∧
      ∀ inbox' key' q, W.openPlain inbox' key' frame = some q → q = plain := by
  obtain ⟨s, hs, hs'⟩ := h.secret
  have hsealed := sealTo_eq inbox hW h.pub hs hplain
  have hlen := length_sealTo hsealed
  refine ⟨_, hsealed, hlen, openKnock_of_plain hlen ?_ hk, ?_⟩
  · rw [openPlain_append h.pub, hs', Option.bind_some, hW.opens]
  · intro inbox' key' q hq
    rw [openPlain_append h.pub, Option.bind_eq_some_iff] at hq
    obtain ⟨s', -, hq⟩ := hq
    exact hW.own hq

end Crypto

/-- **Every frame has one length; what was sealed is opened, as much of the texts as their budgets hold; no plaintext is
read outside of its bounds; and a decoy opens, under whatever key, to nothing else.** -/
theorem knock_codec {W : Crypto} (hW : W.Ideal) {eph key : Dh} (h : eph.Agrees key) (inbox ik : Bytes)
    (hik : ik.length = IK_LEN) (name : List Char) (note : Option (List Char)) (hname : name.head? ≠ some mark)
    (hnote : (note.getD []).head? ≠ some mark) :
    (∃ frame n t, W.sealKnock inbox key.pub ik name note eph = some frame ∧ frame.length = FRAME_LEN ∧
      Utf8.Longest NAME_MAX name n ∧ Utf8.Longest NOTE_MAX (note.getD []) t ∧
      W.openKnock inbox key frame = some (.real ik n t)) ∧
    (∃ frame, W.decoyKnock inbox key.pub eph = some frame ∧ frame.length = FRAME_LEN ∧
      W.openKnock inbox key frame = some .decoy ∧
      ∀ inbox' key', W.openKnock inbox' key' frame = none ∨ W.openKnock inbox' key' frame = some .decoy) ∧
    ∀ p, ∃ k, unpack p = .ok k := by
  obtain ⟨n, hn, heqn⟩ := fitBytes_longest name NAME_MAX
  obtain ⟨t, ht, heqt⟩ := fitBytes_longest (note.getD []) NOTE_MAX
  have hzero : (zeros IK_LEN).length = IK_LEN := Buffer.length_zeros _
  refine ⟨?_, ?_, unpack_total⟩
  · obtain ⟨frame, hsealed, hlen, hopen, -⟩ := Crypto.openKnock_sealTo inbox hW h
      (length_layout KIND_REAL hik hn.fits ht.fits) (unpack_layout KIND_REAL hik hn.fits ht.fits)
    refine ⟨frame, n, t, ?_, hlen, hn, ht, ?_⟩
    · rw [Crypto.sealKnock, pack_eq _ hik, heqn, heqt]
      exact hsealed
    · rw [hopen, if_neg (by decide), if_pos rfl, Utf8.decode_encode (hn.head? hname), Utf8.decode_encode (ht.head? hnote)]
  · have hdecoy := unpack_layout KIND_DECOY (n := []) (t := []) hzero (Nat.zero_le _) (Nat.zero_le _)
    obtain ⟨frame, hsealed, hlen, hopen, hown⟩ := Crypto.openKnock_sealTo inbox hW h
      (length_layout KIND_DECOY hzero (Nat.zero_le _) (Nat.zero_le _)) hdecoy
    refine ⟨frame, ?_, hlen, hopen, ?_⟩
    · rw [Crypto.decoyKnock, pack_eq _ hzero]
      exact hsealed
    · intro inbox' key'
      cases hq : W.openPlain inbox' key' frame with
      | none => exact .inl (by simp only [Crypto.openKnock, hlen, ne_eq, not_true_eq_false, ↓reduceIte, hq])
      | some q =>
          rw [hown inbox' key' q hq] at hq
          exact .inr (Crypto.openKnock_of_plain hlen hq hdecoy)

/-! ## An instance -/

/-- The sum of a key and a nonce, for a tag. -/
def sumTag (k n : Bytes) : Bytes := List.replicate TAG_LEN (k ++ n).sum

/-- Texts in the clear, with the tag behind them. -/
def tagged : Crypto where
  kdf _ shared inbox len := (shared ++ inbox ++ zeros len).take len
  encrypt k n p := p ++ sumTag k n
  decrypt k n ct := if ct.drop (ct.length - TAG_LEN) = sumTag k n then some (ct.take (ct.length - TAG_LEN)) else none

theorem tagged_ideal : tagged.Ideal := by
  have hcut : ∀ (p k n : Bytes), (p ++ sumTag k n).length - TAG_LEN = p.length := by
    intro p k n
    simp [sumTag]
  refine ⟨fun k n p => by simp [tagged, sumTag], fun k n p => ?_, fun {k n k' n' p q} h => ?_⟩
  · simp only [tagged, hcut, List.drop_left', List.take_left', ↓reduceIte]
  · simp only [tagged, hcut, List.drop_left', List.take_left'] at h
    split at h
    · exact (Option.some_inj.mp h).symm
    · cases h

/-- A key whose agreement is `xor`. -/
def xorKey (x : UInt8) : Dh := ⟨List.replicate EPH_LEN x, fun p => some (p.map (· ^^^ x))⟩

theorem xorKey_agrees (x y : UInt8) : (xorKey x).Agrees (xorKey y) where
  pub := List.length_replicate
  secret := ⟨List.replicate EPH_LEN (y ^^^ x), by simp [xorKey], by simp [xorKey, UInt8.xor_comm]⟩

theorem knock_codec_sample :
    ∃ frame n t, tagged.sealKnock [1, 2, 3] (xorKey 7).pub (zeros IK_LEN) ['E', 'w', 'a'] (some ['ż']) (xorKey 9) =
        some frame ∧ frame.length = FRAME_LEN ∧ Utf8.Longest NAME_MAX ['E', 'w', 'a'] n ∧
      Utf8.Longest NOTE_MAX ['ż'] t ∧ tagged.openKnock [1, 2, 3] (xorKey 7) frame = some (.real (zeros IK_LEN) n t) :=
  (knock_codec tagged_ideal (xorKey_agrees 9 7) [1, 2, 3] (zeros IK_LEN) (Buffer.length_zeros _) ['E', 'w', 'a']
    (some ['ż']) (by decide) (by decide)).1

end EncedoChat.Inbox
