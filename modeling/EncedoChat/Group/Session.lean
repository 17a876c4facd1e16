import EncedoChat.Lib.Bytes
import EncedoChat.Lib.OrdMap

/-!
# The group frame on the wire

`encodeHeader`, `decodeHeader` and the two ends of the frame in `lib/group.ts`. The header is the associated
data of the frame's AEAD; header and ciphertext are what each recipient's MAC covers.
-/

namespace EncedoChat.Group

def T_GMSG : UInt8 := 0x20
def VERSION : UInt8 := 3
def HDR_LEN : Nat := 16 + 8 + 4 + 4
def REC_LEN : Nat := 8 + 32

structure Header where
  gid : Bytes
  senderId : Bytes
  epoch : Nat
  ctr : Nat
  deriving DecidableEq

def encodeHeader (h : Header) : Bytes := h.gid ++ (h.senderId ++ (Bytes.u32be h.epoch ++ Bytes.u32be h.ctr))

def decodeHeader (b : Bytes) : Header :=
  { gid := Bytes.slice b 0 16
    senderId := Bytes.slice b 16 24
    epoch := Bytes.getU32 b 24
    ctr := Bytes.getU32 b 28 }

/-- A frame taken apart: header, one `recipient_id ‖ mac` per recipient, ciphertext. -/
structure Frame where
  header : Bytes
  recips : List (Bytes × Bytes)
  ct : Bytes
  deriving DecidableEq

def encodeFrame (f : Frame) : Bytes :=
  [T_GMSG, VERSION] ++ (f.header ++ ([UInt8.ofNat f.recips.length] ++
    (f.recips.flatMap (fun r => r.1 ++ r.2) ++ f.ct)))

/-- `macCount` records from offset `o` on. -/
def readRecips (frame : Bytes) : Nat → Nat → List (Bytes × Bytes)
  | 0, _ => []
  | k + 1, o => (Bytes.slice frame o (o + 8), Bytes.slice frame (o + 8) (o + REC_LEN)) ::
      readRecips frame k (o + REC_LEN)

/-- `receive` up to the ciphertext. -/
def readFrame (frame : Bytes) : Option Frame :=
  if frame.length < 2 + HDR_LEN + 1 ∨ frame.getD 0 0 ≠ T_GMSG ∨ frame.getD 1 0 ≠ VERSION then none
  else
    let o := 2 + HDR_LEN
    let macCount := (frame.getD o 0).toNat
    let o := o + 1
    if o + macCount * REC_LEN > frame.length then none
    else some
      { header := Bytes.slice frame 2 (2 + HDR_LEN)
        recips := readRecips frame macCount o
        ct := frame.drop (o + macCount * REC_LEN) }

/-! ## Reading back what was written -/

/-- A header whose ids have the lengths of their hashes. -/
structure Header.Fits (h : Header) : Prop where
  gid : h.gid.length = 16
  senderId : h.senderId.length = 8

theorem length_encodeHeader {h : Header} (hf : h.Fits) : (encodeHeader h).length = HDR_LEN := by
  simp [encodeHeader, hf.gid, hf.senderId, HDR_LEN]

theorem decodeHeader_encodeHeader {h : Header} (hf : h.Fits) :
    decodeHeader (encodeHeader h) = { h with epoch := h.epoch % 2 ^ 32, ctr := h.ctr % 2 ^ 32 } := by
  have hgid : Bytes.slice (encodeHeader h) 0 16 = h.gid :=
    Bytes.slice_mid [] h.gid _ rfl (by rw [hf.gid])
  have hsid : Bytes.slice (encodeHeader h) 16 24 = h.senderId :=
    Bytes.slice_mid h.gid h.senderId _ hf.gid (by rw [hf.senderId])
  have hepoch : Bytes.getU32 (encodeHeader h) 24 = h.epoch % 2 ^ 32 := by
    rw [encodeHeader, ← List.append_assoc]
    exact Bytes.getU32_mid _ _ _ (by simp [hf.gid, hf.senderId])
  have hctr : Bytes.getU32 (encodeHeader h) 28 = h.ctr % 2 ^ 32 := by
    have h4 := Bytes.getU32_mid (h.gid ++ (h.senderId ++ Bytes.u32be h.epoch)) [] h.ctr (i := 28)
      (by simp [hf.gid, hf.senderId])
    simpa [encodeHeader] using h4
  rw [decodeHeader, hgid, hsid, hepoch, hctr]

/-- A frame as `send` lays it out. -/
structure Frame.Fits (f : Frame) : Prop where
  header : f.header.length = HDR_LEN
  recips : ∀ r ∈ f.recips, r.1.length = 8 ∧ r.2.length = 32

theorem length_flatMap_recips {rs : List (Bytes × Bytes)} (h : ∀ r ∈ rs, r.1.length = 8 ∧ r.2.length = 32) :
    (rs.flatMap fun r => r.1 ++ r.2).length = rs.length * REC_LEN := by
  induction rs with
  | nil => rfl
  | cons r rs ih =>
      obtain ⟨h8, h32⟩ := h r (List.mem_cons_self ..)
      have htail := ih fun r' hr' => h r' (List.mem_cons_of_mem _ hr')
      simp only [List.flatMap_cons, List.length_append, h8, h32, htail, List.length_cons, REC_LEN]
      omega

theorem readRecips_flatMap {rs : List (Bytes × Bytes)} (h : ∀ r ∈ rs, r.1.length = 8 ∧ r.2.length = 32)
    (a c : Bytes) : readRecips (a ++ (rs.flatMap (fun r => r.1 ++ r.2) ++ c)) rs.length a.length = rs := by
  induction rs generalizing a with
  | nil => rfl
  | cons r rs ih =>
      obtain ⟨h8, h32⟩ := h r (List.mem_cons_self ..)
      have htail := ih (fun r' hr' => h r' (List.mem_cons_of_mem _ hr')) (a ++ (r.1 ++ r.2))
      have hid : Bytes.slice (a ++ ((r :: rs).flatMap (fun r => r.1 ++ r.2) ++ c)) a.length (a.length + 8) = r.1 := by
        rw [List.flatMap_cons, List.append_assoc, List.append_assoc]
        exact Bytes.slice_mid a r.1 _ rfl (by rw [h8])
      have hmac : Bytes.slice (a ++ ((r :: rs).flatMap (fun r => r.1 ++ r.2) ++ c)) (a.length + 8)
          (a.length + REC_LEN) = r.2 := by
        rw [List.flatMap_cons, List.append_assoc, List.append_assoc, ← List.append_assoc a]
        exact Bytes.slice_mid (a ++ r.1) r.2 _ (by simp [h8]) (by rw [h32, REC_LEN])
      rw [List.length_cons, readRecips, hid, hmac]
      have hlen : (a ++ (r.1 ++ r.2)).length = a.length + REC_LEN := by simp [h8, h32, REC_LEN]
      rw [hlen] at htail
      simpa [List.flatMap_cons, List.append_assoc] using htail

/-- Up to 255 recipients, the number the count byte can hold. -/
theorem readFrame_encodeFrame {f : Frame} (hf : f.Fits) (hcount : f.recips.length < 256) :
    readFrame (encodeFrame f) = some f := by
  set body := f.recips.flatMap fun r => r.1 ++ r.2 with hbody
  have hlen : (encodeFrame f).length = 35 + f.recips.length * REC_LEN + f.ct.length := by
    simp only [encodeFrame, List.length_append, hf.header, length_flatMap_recips hf.recips, HDR_LEN,
      List.length_cons, List.length_nil]
    omega
  have h0 : (encodeFrame f).getD 0 0 = T_GMSG := rfl
  have h1 : (encodeFrame f).getD 1 0 = VERSION := rfl
  have hsplit : encodeFrame f = ([T_GMSG, VERSION] ++ f.header) ++ ([UInt8.ofNat f.recips.length] ++ (body ++ f.ct)) := by
    rw [encodeFrame, List.append_assoc]
  have hcnt : ((encodeFrame f).getD 34 0).toNat = f.recips.length := by
    rw [hsplit, List.getD_eq_getElem?_getD, List.getElem?_append_right (by simp [hf.header, HDR_LEN])]
    simp only [List.length_append, hf.header, HDR_LEN, List.length_cons, List.length_nil]
    simp
    omega
  have hpre : ([T_GMSG, VERSION] ++ f.header ++ [UInt8.ofNat f.recips.length]).length = 35 := by
    simp [hf.header, HDR_LEN]
  have hsplit' : encodeFrame f =
      ([T_GMSG, VERSION] ++ f.header ++ [UInt8.ofNat f.recips.length]) ++ (body ++ f.ct) := by
    rw [hsplit, List.append_assoc _ [UInt8.ofNat f.recips.length]]
  have hheader : Bytes.slice (encodeFrame f) 2 (2 + HDR_LEN) = f.header := by
    exact Bytes.slice_mid [T_GMSG, VERSION] f.header _ rfl (by rw [hf.header])
  have hrecs : readRecips (encodeFrame f) f.recips.length 35 = f.recips := by
    rw [hsplit', ← hpre]
    exact readRecips_flatMap hf.recips _ f.ct
  have hct : (encodeFrame f).drop (35 + f.recips.length * REC_LEN) = f.ct := by
    rw [hsplit', ← List.append_assoc]
    exact List.drop_left' (by rw [List.length_append, hpre, hbody, length_flatMap_recips hf.recips])
  unfold readFrame
  rw [if_neg (by rw [h0, h1, hlen, HDR_LEN]; simp; omega)]
  dsimp only
  rw [show 2 + HDR_LEN = 34 from rfl, hcnt, if_neg (by omega)]
  rw [show 2 + HDR_LEN = 34 from rfl] at hheader
  rw [hheader, hrecs, hct]

/-- What the reader makes of a frame whose count byte has wrapped: the records past the count stand in the ciphertext. -/
def Frame.wrapped (f : Frame) : Frame :=
  { f with
    recips := f.recips.take (f.recips.length % 256)
    ct := (f.recips.drop (f.recips.length % 256)).flatMap (fun r => r.1 ++ r.2) ++ f.ct }

theorem encodeFrame_wrapped (f : Frame) : encodeFrame f.wrapped = encodeFrame f := by
  have hcount : UInt8.ofNat (f.recips.take (f.recips.length % 256)).length = UInt8.ofNat f.recips.length := by
    apply UInt8.toNat.inj
    have hle := Nat.mod_le f.recips.length 256
    simp only [UInt8.toNat_ofNat', List.length_take]
    omega
  rw [encodeFrame, encodeFrame]
  simp only [Frame.wrapped, hcount]
  rw [← List.append_assoc (List.flatMap _ _), ← List.flatMap_append, List.take_append_drop]

/-- Any frame is read back as far as its count byte goes. -/
theorem readFrame_wrapped {f : Frame} (hf : f.Fits) : readFrame (encodeFrame f) = some f.wrapped := by
  rw [← encodeFrame_wrapped]
  refine readFrame_encodeFrame ⟨hf.header, fun r hr => hf.recips r (List.mem_of_mem_take hr)⟩ ?_
  have hlt := Nat.mod_lt f.recips.length (by decide : 0 < 256)
  simp only [Frame.wrapped, List.length_take]
  omega

end EncedoChat.Group

/-!
# A member's view of a group

What the frames of `GroupSession` in `lib/group.ts` are made of and checked against, the chains apart: the
roster, its ids and the pairwise MAC keys. `frameFor` is the end of `send`, `accept` is `receive` up to the
choice of a receiver.
-/

namespace EncedoChat.Group

/-- What a session asks of hashes, of the identity backend and of HMAC. -/
structure Identities where
  Pub : Type
  [decPub : DecidableEq Pub]
  /-- `SHA-256(IK_pub)[0:8]` -/
  senderIdOf : Pub → Bytes
  MacKey : Type
  /-- mk_ij, by the member who derives it, the other one, group id and epoch. -/
  msgMacKeyFor : Pub → Pub → Bytes → Nat → MacKey
  /-- HMAC over `header ‖ ct` -/
  tag : MacKey → Bytes → Bytes → Bytes
  length_senderIdOf : ∀ p, (senderIdOf p).length = 8
  length_tag : ∀ k header ct, (tag k header ct).length = 32

attribute [instance] Identities.decPub

instance Identities.lawfulBEq (I : Identities) : LawfulBEq I.Pub := inferInstance

/-- Both ends of a pair derive one key: it comes from their ECDH. -/
def Identities.Symmetric (I : Identities) : Prop :=
  ∀ a b gid epoch, I.msgMacKeyFor a b gid epoch = I.msgMacKeyFor b a gid epoch

/-- `GroupSession` without its chains: `setMembers` has run. -/
structure Session (I : Identities) where
  me : I.Pub
  gid : Bytes
  epoch : Nat
  members : List I.Pub
  length_gid : gid.length = 16

namespace Session

variable {I : Identities}

/-- sender id to member; of two members with one id the later. -/
def byId (v : Session I) : OrdMap Bytes I.Pub := v.members.foldl (fun m p => m.set (I.senderIdOf p) p) .empty

def macKeyFor (v : Session I) (memberPub : I.Pub) : I.MacKey := I.msgMacKeyFor v.me memberPub v.gid v.epoch

def verify (k : I.MacKey) (header ct mac : Bytes) : Bool := decide (I.tag k header ct = mac)

def headerAt (v : Session I) (ctr : Nat) : Header := ⟨v.gid, I.senderIdOf v.me, v.epoch, ctr⟩

/-- `send` once the chain has sealed: one MAC per other member. -/
def frameFor (v : Session I) (header ct : Bytes) : Frame :=
  { header
    recips := (v.members.filter fun m => decide (m ≠ v.me)).map fun m =>
      (I.senderIdOf m, I.tag (v.macKeyFor m) header ct)
    ct }

/-- A frame whose MAC for us holds, and who sent it. -/
structure Accepted (I : Identities) where
  sender : I.Pub
  header : Bytes
  ct : Bytes

def Accepted.ctr (a : Accepted I) : Nat := (decodeHeader a.header).ctr

/-- `receive` up to the choice of a receiver. -/
def accept (v : Session I) (frame : Bytes) : Option (Accepted I) :=
  (readFrame frame).bind fun f =>
    let macs := f.recips.foldl (fun m r => m.set r.1 r.2) OrdMap.empty
    let h := decodeHeader f.header
    (v.byId.get h.senderId).bind fun sender =>
      if sender = v.me then none
      else (macs.get (I.senderIdOf v.me)).bind fun mine =>
        if verify (v.macKeyFor sender) f.header f.ct mine then some ⟨sender, f.header, f.ct⟩ else none

/-! ## A frame reaches the members it was made for -/

/-- Two views of one group at one epoch. -/
structure SameGroup (s v : Session I) : Prop where
  gid : s.gid = v.gid
  epoch : s.epoch = v.epoch
  members : s.members = v.members

/-- A roster whose hashes of identities do not collide. -/
def IdsDistinct (v : Session I) : Prop :=
  ∀ a ∈ v.members, ∀ b ∈ v.members, I.senderIdOf a = I.senderIdOf b → a = b

theorem headerAt_fits (s : Session I) (ctr : Nat) : (s.headerAt ctr).Fits := ⟨s.length_gid, I.length_senderIdOf _⟩

theorem frameFor_fits (s : Session I) (ctr : Nat) (ct : Bytes) : (s.frameFor (encodeHeader (s.headerAt ctr)) ct).Fits where
  header := length_encodeHeader (s.headerAt_fits ctr)
  recips := by
    intro r hr
    obtain ⟨m, -, rfl⟩ := List.mem_map.mp hr
    exact ⟨I.length_senderIdOf m, I.length_tag ..⟩

variable {s v : Session I}

theorem byId_senderIdOf {p : I.Pub} (h : v.IdsDistinct) (hp : p ∈ v.members) :
    v.byId.get (I.senderIdOf p) = some p :=
  OrdMap.get_foldl_set (v := id) (fun b hb he => h b hb p hp he) (Or.inl hp)

/-- Every other member lets the frame in, as the sender's. -/
theorem accept_frameFor (hI : I.Symmetric) (hsv : SameGroup s v) (hid : s.IdsDistinct) (hs : s.me ∈ s.members)
    (hv : v.me ∈ s.members) (hne : s.me ≠ v.me) (hcount : (s.members.filter fun m => decide (m ≠ s.me)).length < 256)
    (ctr : Nat) (ct : Bytes) :
    v.accept (encodeFrame (s.frameFor (encodeHeader (s.headerAt ctr)) ct)) =
      some ⟨s.me, encodeHeader (s.headerAt ctr), ct⟩ := by
  have hread := readFrame_encodeFrame (s.frameFor_fits ctr ct) (by simpa [frameFor] using hcount)
  have hdec := decodeHeader_encodeHeader (s.headerAt_fits ctr)
  have hby : v.byId.get (I.senderIdOf s.me) = some s.me := by
    apply byId_senderIdOf
    · rw [IdsDistinct, ← hsv.members]
      exact hid
    · exact hsv.members ▸ hs
  have hmine : ((s.frameFor (encodeHeader (s.headerAt ctr)) ct).recips.foldl (fun m r => m.set r.1 r.2)
      OrdMap.empty).get (I.senderIdOf v.me) =
        some (I.tag (s.macKeyFor v.me) (encodeHeader (s.headerAt ctr)) ct) := by
    rw [frameFor, List.foldl_map]
    refine OrdMap.get_foldl_set (k := I.senderIdOf) (v := fun m => I.tag (s.macKeyFor m) _ ct) ?_ ?_
    · intro b hb he
      rw [hid b (List.mem_of_mem_filter hb) v.me hv he]
    · exact Or.inl (List.mem_filter.mpr ⟨hv, by simpa using hne.symm⟩)
  have hkey : v.macKeyFor s.me = s.macKeyFor v.me := by
    rw [macKeyFor, macKeyFor, ← hsv.gid, ← hsv.epoch]
    exact hI ..
  rw [accept, hread, Option.bind_some]
  dsimp only
  rw [hmine]
  simp only [frameFor, hdec]
  simp only [headerAt, hby, Option.bind_some, if_neg hne, hkey, verify, decide_true, if_true]

end Session

/-! ## Symbolic identities -/

namespace Symbolic

/-- Members are named by a byte; a pair's key is its two names, group and epoch. -/
def identities : Identities where
  Pub := UInt8
  senderIdOf p := p :: List.replicate 7 0
  MacKey := Bytes
  msgMacKeyFor a b gid epoch := (if a ≤ b then [a, b] else [b, a]) ++ (gid ++ Bytes.u32be epoch)
  tag k header ct := (k ++ (ct ++ (header ++ List.replicate 32 0))).take 32
  length_senderIdOf p := by simp
  length_tag k header ct := by
    rw [List.length_take, List.length_append, List.length_append, List.length_append, List.length_replicate]
    omega

theorem symmetric : identities.Symmetric := by
  intro (a : UInt8) (b : UInt8) gid epoch
  have hpair : (if a ≤ b then [a, b] else [b, a]) = if b ≤ a then [b, a] else [a, b] := by
    obtain hab | hab := UInt8.le_total a b
    · by_cases hba : b ≤ a
      · rw [UInt8.le_antisymm hab hba]
      · rw [if_pos hab, if_neg hba]
    · by_cases hba : a ≤ b
      · rw [UInt8.le_antisymm hab hba]
      · rw [if_pos hab, if_neg hba]
  exact congrArg (· ++ (gid ++ Bytes.u32be epoch)) hpair

end Symbolic

end EncedoChat.Group
