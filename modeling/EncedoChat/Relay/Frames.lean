import EncedoChat.Lib.Utf8
import Mathlib.Tactic.Common

/-!
# The frames of the pick protocol

The encoders of `pick.mjs` and `decodeFrame`, which reads what is left of the bytes one part after another. A frame is
parsed to the bytes of its names first; the text of a name is what they decode to.
-/

namespace EncedoChat.Relay

open Utf8 (encode decode mark)

namespace T

def PICK : UInt8 := 0x01
def DROP : UInt8 := 0x02
def PUSH : UInt8 := 0x03
def DELIVER : UInt8 := 0x11
def REFUSED : UInt8 := 0x12
def ACK : UInt8 := 0x13
def PICKED : UInt8 := 0x14

end T

def MAX_NAME : Nat := 255

/-- The types of the frames that are a topic and nothing else. -/
def bare : List UInt8 := [T.PICK, T.DROP, T.REFUSED, T.PICKED]

inductive Frame (α : Type) where
  | bare (type : UInt8) (topic : α)
  | deliver (sender topic : α) (data : Bytes)
  | push (topic : α) (data : Bytes)
  | ack (topic : α) (recipients : Nat)
  deriving DecidableEq

def Frame.map {α β : Type} (f : α → β) : Frame α → Frame β
  | bare type topic => bare type (f topic)
  | deliver sender topic data => deliver (f sender) (f topic) data
  | push topic data => push (f topic) data
  | ack topic recipients => ack (f topic) recipients

/-! ## Encoders -/

/-- Nothing where it throws. -/
def nameBytes (s : List Char) : Option Bytes :=
  let b := encode s
  if b.length = 0 ∨ MAX_NAME < b.length then none else some b

def concat (parts : List Bytes) : Bytes := parts.flatten

/-- `n | 0` -/
def toInt32 (n : Int) : Int :=
  let m := n % 2 ^ 32
  if 2 ^ 31 ≤ m then m - 2 ^ 32 else m

/-- `Math.max(0, Math.min(0xffff, n))` -/
def clamp (n : Int) : Nat := (min 0xffff n).toNat

def encodeBare (type : UInt8) (topic : List Char) : Option Bytes := do
  let t ← nameBytes topic
  return concat [[type], t]

def encodePick (topic : List Char) : Option Bytes := encodeBare T.PICK topic
def encodeDrop (topic : List Char) : Option Bytes := encodeBare T.DROP topic
def encodeRefused (topic : List Char) : Option Bytes := encodeBare T.REFUSED topic
def encodePicked (topic : List Char) : Option Bytes := encodeBare T.PICKED topic

def encodeDeliver (sender topic : List Char) (data : Bytes) : Option Bytes := do
  let f ← nameBytes sender
  let t ← nameBytes topic
  return concat [[T.DELIVER, UInt8.ofNat f.length], f, [UInt8.ofNat t.length], t, data]

def encodePush (topic : List Char) (data : Bytes) : Option Bytes := do
  let t ← nameBytes topic
  return concat [[T.PUSH, UInt8.ofNat t.length], t, data]

def encodeAck (topic : List Char) (recipients : Int) : Option Bytes := do
  let t ← nameBytes topic
  let n := clamp (toInt32 recipients)
  return concat [[T.ACK, UInt8.ofNat t.length], t, [UInt8.ofNat (n / 256), UInt8.ofNat (n % 256)]]

/-! ## The parser -/

/-- A length, a name of that length with `more` bytes behind it, and what is left after the name. -/
def readName (more : Nat) : Bytes → Option (Bytes × Bytes)
  | [] => none
  | l :: rest => if l = 0 ∨ rest.length < l.toNat + more then none else some (rest.take l.toNat, rest.drop l.toNat)

def parseFrame : Bytes → Option (Frame Bytes)
  | [] => none
  | type :: rest =>
    if rest.length < 1 then none
    else if type ∈ bare then if MAX_NAME < rest.length then none else some (.bare type rest)
    else if type = T.DELIVER then do
      let (f, rest) ← readName 0 rest
      let (t, rest) ← readName 0 rest
      return .deliver f t rest
    else if type = T.PUSH then do
      let (t, rest) ← readName 0 rest
      return .push t rest
    else if type = T.ACK then do
      let (t, rest) ← readName 2 rest
      match rest with
      | hi :: lo :: _ => return .ack t (hi.toNat * 256 + lo.toNat)
      | _ => none
    else none

def decodeFrame (bytes : Bytes) : Option (Frame (List Char)) := (parseFrame bytes).map (Frame.map decode)

/-! ## What a frame is made of -/

/-- The bytes of a name fit its length. -/
def Named (b : Bytes) : Prop := 0 < b.length ∧ b.length ≤ MAX_NAME

def prefixed (b : Bytes) : Bytes := UInt8.ofNat b.length :: b

/-- The bytes are those of the frame, in order, and nothing of it lies outside of them. -/
inductive Lies : Bytes → Frame Bytes → Prop
  | bare {type : UInt8} {t : Bytes} : type ∈ Relay.bare → Named t → Lies (type :: t) (.bare type t)
  | deliver {f t data : Bytes} : Named f → Named t →
      Lies (T.DELIVER :: (prefixed f ++ (prefixed t ++ data))) (.deliver f t data)
  | push {t data : Bytes} : Named t → Lies (T.PUSH :: (prefixed t ++ data)) (.push t data)
  | ack {t : Bytes} {hi lo : UInt8} {rest : Bytes} : Named t →
      Lies (T.ACK :: (prefixed t ++ hi :: lo :: rest)) (.ack t (hi.toNat * 256 + lo.toNat))

theorem readName_prefixed {v rest : Bytes} {more : Nat} (hv : Named v) (hmore : more ≤ rest.length) :
    readName more (prefixed v ++ rest) = some (v, rest) := by
  have hlen : (UInt8.ofNat v.length).toNat = v.length := UInt8.toNat_ofNat_of_lt' (Nat.lt_succ_of_le hv.2)
  have hne : UInt8.ofNat v.length ≠ 0 := by
    intro hzero
    rw [hzero] at hlen
    exact absurd hlen (Nat.ne_of_lt hv.1)
  have hfit : ¬(v ++ rest).length < v.length + more := by
    rw [List.length_append]
    omega
  rw [prefixed, List.cons_append, readName, hlen, if_neg (not_or.mpr ⟨hne, hfit⟩), List.take_left' rfl,
    List.drop_left' rfl]

theorem readName_some {bs v rest : Bytes} {more : Nat} (h : readName more bs = some (v, rest)) :
    bs = prefixed v ++ rest ∧ Named v ∧ more ≤ rest.length := by
  cases bs with
  | nil => cases h
  | cons l bs =>
      rw [readName] at h
      split at h
      · cases h
      · rename_i hok
        rw [not_or] at hok
        have hlt := l.toNat_lt
        have hpos : 0 < l.toNat := Nat.pos_of_ne_zero fun hzero => hok.1 (UInt8.toNat_inj.mp hzero)
        obtain ⟨rfl, rfl⟩ := Prod.mk.inj (Option.some.inj h)
        have hlen : (bs.take l.toNat).length = l.toNat := by
          rw [List.length_take]
          omega
        refine ⟨?_, ⟨by omega, by rw [hlen, MAX_NAME]; omega⟩, ?_⟩
        · rw [prefixed, hlen, UInt8.ofNat_toNat, List.cons_append, List.take_append_drop]
        · rw [List.length_drop]
          omega

theorem parseFrame_of_lies {bs : Bytes} {f : Frame Bytes} (h : Lies bs f) : parseFrame bs = some f := by
  cases h with
  | bare htype hname =>
      rw [parseFrame, if_neg (Nat.not_lt.mpr hname.1), if_pos htype, if_neg (Nat.not_lt.mpr hname.2)]
  | deliver hf ht =>
      rw [parseFrame, if_neg (by simp [prefixed]), if_neg (by decide), if_pos rfl, readName_prefixed hf (Nat.zero_le _)]
      simp [readName_prefixed ht (Nat.zero_le _)]
  | push ht =>
      rw [parseFrame, if_neg (by simp [prefixed]), if_neg (by decide), if_neg (by decide), if_pos rfl,
        readName_prefixed ht (Nat.zero_le _)]
      rfl
  | ack ht =>
      rw [parseFrame, if_neg (by simp [prefixed]), if_neg (by decide), if_neg (by decide), if_neg (by decide), if_pos rfl,
        readName_prefixed ht (by simp)]
      rfl

theorem lies_of_parseFrame {bs : Bytes} {f : Frame Bytes} (h : parseFrame bs = some f) : Lies bs f := by
  cases bs with
  | nil => cases h
  | cons type rest =>
      rw [parseFrame] at h
      split at h
      · cases h
      · rename_i hlen
        split at h
        · rename_i htype
          split at h
          · cases h
          · rename_i hmax
            cases h
            exact .bare htype ⟨by omega, by omega⟩
        · split at h
          · rename_i htype
            simp only [Option.bind_eq_bind, Option.bind_eq_some_iff, Option.pure_def, Option.some.injEq] at h
            obtain ⟨⟨f', rest₁⟩, h₁, ⟨t, rest₂⟩, h₂, rfl⟩ := h
            obtain ⟨rfl, hf, -⟩ := readName_some h₁
            obtain ⟨rfl, ht, -⟩ := readName_some h₂
            exact htype ▸ .deliver hf ht
          · split at h
            · rename_i htype
              simp only [Option.bind_eq_bind, Option.bind_eq_some_iff, Option.pure_def, Option.some.injEq] at h
              obtain ⟨⟨t, rest₁⟩, h₁, rfl⟩ := h
              obtain ⟨rfl, ht, -⟩ := readName_some h₁
              exact htype ▸ .push ht
            · split at h
              · rename_i htype
                simp only [Option.bind_eq_bind, Option.bind_eq_some_iff] at h
                obtain ⟨⟨t, rest₁⟩, h₁, h⟩ := h
                obtain ⟨rfl, ht, -⟩ := readName_some h₁
                dsimp only at h
                split at h
                · cases h
                  exact htype ▸ .ack ht
                · cases h
              · cases h

theorem Lies.unique {bs : Bytes} {f g : Frame Bytes} (hf : Lies bs f) (hg : Lies bs g) : f = g :=
  Option.some.inj ((parseFrame_of_lies hf).symm.trans (parseFrame_of_lies hg))

/-! ## What the encoders make -/

theorem nameBytes_ok {s : List Char} (h : Named (encode s)) : nameBytes s = some (encode s) := by
  rw [nameBytes, if_neg]
  have := h.1
  have := h.2
  omega

theorem nameBytes_some {s : List Char} {b : Bytes} (h : nameBytes s = some b) : b = encode s ∧ Named (encode s) := by
  rw [nameBytes] at h
  split at h
  · cases h
  · rename_i hok
    cases h
    exact ⟨rfl, by omega, by omega⟩

/-- The bytes that an encoder makes, and what they stand for. -/
inductive Encodes : Bytes → Frame (List Char) → Prop
  | pick {topic bs} : encodePick topic = some bs → Encodes bs (.bare T.PICK topic)
  | drop {topic bs} : encodeDrop topic = some bs → Encodes bs (.bare T.DROP topic)
  | refused {topic bs} : encodeRefused topic = some bs → Encodes bs (.bare T.REFUSED topic)
  | picked {topic bs} : encodePicked topic = some bs → Encodes bs (.bare T.PICKED topic)
  | deliver {sender topic data bs} : encodeDeliver sender topic data = some bs → Encodes bs (.deliver sender topic data)
  | push {topic data bs} : encodePush topic data = some bs → Encodes bs (.push topic data)
  | ack {topic recipients bs} : encodeAck topic recipients = some bs →
      Encodes bs (.ack topic (clamp (toInt32 recipients)))

theorem lies_bare {type : UInt8} {topic : List Char} {bs : Bytes} (htype : type ∈ Relay.bare)
    (h : encodeBare type topic = some bs) : Lies bs (.bare type (encode topic)) := by
  simp only [encodeBare, Option.bind_eq_bind, Option.bind_eq_some_iff, Option.pure_def, Option.some.injEq] at h
  obtain ⟨t, ht, rfl⟩ := h
  obtain ⟨rfl, hname⟩ := nameBytes_some ht
  have hcat : concat [[type], encode topic] = type :: encode topic := by simp [concat]
  exact hcat ▸ .bare htype hname

theorem clamp_lt (n : Int) : clamp n < 65536 := by
  rw [clamp]
  omega

/-- An encoder's output is the frame with the bytes of its names. -/
theorem Encodes.lies {bs : Bytes} {f : Frame (List Char)} (h : Encodes bs f) : Lies bs (f.map encode) := by
  cases h with
  | pick h => exact lies_bare (by decide) h
  | drop h => exact lies_bare (by decide) h
  | refused h => exact lies_bare (by decide) h
  | picked h => exact lies_bare (by decide) h
  | deliver h =>
      simp only [encodeDeliver, Option.bind_eq_bind, Option.bind_eq_some_iff, Option.pure_def, Option.some.injEq] at h
      obtain ⟨f, hf, t, ht, rfl⟩ := h
      obtain ⟨rfl, hsender⟩ := nameBytes_some hf
      obtain ⟨rfl, htopic⟩ := nameBytes_some ht
      simpa [concat, prefixed, Frame.map] using Lies.deliver hsender htopic
  | push h =>
      simp only [encodePush, Option.bind_eq_bind, Option.bind_eq_some_iff, Option.pure_def, Option.some.injEq] at h
      obtain ⟨t, ht, rfl⟩ := h
      obtain ⟨rfl, htopic⟩ := nameBytes_some ht
      simpa [concat, prefixed, Frame.map] using Lies.push htopic
  | @ack topic recipients bs h =>
      simp only [encodeAck, Option.bind_eq_bind, Option.bind_eq_some_iff, Option.pure_def, Option.some.injEq] at h
      obtain ⟨t, ht, rfl⟩ := h
      obtain ⟨rfl, htopic⟩ := nameBytes_some ht
      have hlt := clamp_lt (toInt32 recipients)
      generalize clamp (toInt32 recipients) = n at hlt ⊢
      have hn : (UInt8.ofNat (n / 256)).toNat * 256 + (UInt8.ofNat (n % 256)).toNat = n := by
        rw [UInt8.toNat_ofNat', UInt8.toNat_ofNat']
        omega
      have hlies : Lies (T.ACK :: (prefixed (encode topic) ++ UInt8.ofNat (n / 256) :: UInt8.ofNat (n % 256) :: []))
          (.ack (encode topic) ((UInt8.ofNat (n / 256)).toNat * 256 + (UInt8.ofNat (n % 256)).toNat)) := .ack htopic
      rw [hn] at hlies
      simpa [concat, prefixed, Frame.map] using hlies

/-- A frame whose names do not begin with the mark. -/
def Frame.Unmarked : Frame (List Char) → Prop
  | bare _ topic => topic.head? ≠ some mark
  | deliver sender topic _ => sender.head? ≠ some mark ∧ topic.head? ≠ some mark
  | push topic _ => topic.head? ≠ some mark
  | ack topic _ => topic.head? ≠ some mark

theorem decodeFrame_of_lies {bs : Bytes} {f : Frame (List Char)} (h : Lies bs (f.map encode)) (hf : f.Unmarked) :
    decodeFrame bs = some f := by
  rw [decodeFrame, parseFrame_of_lies h, Option.map_some]
  cases f with
  | bare type topic => rw [Frame.map, Frame.map, Utf8.decode_encode hf]
  | deliver sender topic data => rw [Frame.map, Frame.map, Utf8.decode_encode hf.1, Utf8.decode_encode hf.2]
  | push topic data => rw [Frame.map, Frame.map, Utf8.decode_encode hf]
  | ack topic recipients => rw [Frame.map, Frame.map, Utf8.decode_encode hf]

theorem Frame.map_injective {α β : Type} {f : α → β} (hf : Function.Injective f) : Function.Injective (Frame.map f) := by
  intro a b h
  cases a <;> cases b <;> simp_all [Frame.map, hf.eq_iff]

/-- Different frames have different bytes, whatever their names begin with. -/
theorem Encodes.unique {bs : Bytes} {f g : Frame (List Char)} (hf : Encodes bs f) (hg : Encodes bs g) : f = g :=
  Frame.map_injective (fun _ _ => Utf8.encode_inj) (hf.lies.unique hg.lies)

/-! ## The count of an ACK -/

/-- The count is in range, or so far out of it that its low 32 bits fall on the same side. -/
def CountOk (n : Int) : Prop :=
  if n ≤ 0 then n % 2 ^ 32 = 0 ∨ 2 ^ 31 ≤ n % 2 ^ 32
  else n < 2 ^ 31 ∨ 0xffff ≤ n % 2 ^ 32 ∧ n % 2 ^ 32 < 2 ^ 31

instance (b : Bytes) : Decidable (Named b) := inferInstanceAs (Decidable (_ ∧ _))

instance (n : Int) : Decidable (CountOk n) := inferInstanceAs (Decidable (ite _ _ _))

theorem clamp_toInt32 (n : Int) : clamp (toInt32 n) = clamp n ↔ CountOk n := by
  simp only [clamp, toInt32, CountOk]
  split <;> split <;> omega

/-- Every encoder's output for valid names. -/
theorem encodes_total {sender topic : List Char} (hs : Named (encode sender)) (ht : Named (encode topic)) (data : Bytes)
    (n : Int) : (∃ bs, encodePick topic = some bs) ∧ (∃ bs, encodeDrop topic = some bs) ∧
      (∃ bs, encodeRefused topic = some bs) ∧ (∃ bs, encodePicked topic = some bs) ∧
      (∃ bs, encodeDeliver sender topic data = some bs) ∧ (∃ bs, encodePush topic data = some bs) ∧
      ∃ bs, encodeAck topic n = some bs := by
  simp [encodePick, encodeDrop, encodeRefused, encodePicked, encodeBare, encodeDeliver, encodePush, encodeAck,
    nameBytes_ok hs, nameBytes_ok ht]

end EncedoChat.Relay
