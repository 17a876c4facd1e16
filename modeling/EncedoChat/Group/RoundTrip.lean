import EncedoChat.Group.Send

/-!
# From one member to the others

`send` and `receive` of `GroupSession`, each awaited alone: who opens the frame that a member sends.
-/

namespace EncedoChat.Group

variable {S : Suite} {I : Identities}

namespace Session

/-- What the AEAD makes of a plaintext at the position of the chain. -/
def sealNext (s : Session I) (w : SendChain S) (pt : Bytes) : Box S.Key S.Nonce :=
  aeadBox (S.chain.messageKey w.key) w.n (encodeHeader (s.headerAt w.n)) pt

/-- `send`: the frame, and the chain one step on. -/
def send (s : Session I) (w : SendChain S) (pt : Bytes) : Bytes × SendChain S :=
  let header := encodeHeader (s.headerAt w.n)
  (encodeFrame (s.frameFor header (s.sealNext w pt).ct), ⟨S.chain.chainNext w.key, w.n + 1⟩)

/-- `receive`, with the receivers of the session. -/
def receive (o : ReceiverOpts) (opens : Open S) (v : Session I) (receivers : OrdMap I.Pub (SenderReceiver S))
    (t t' : Time) (frame : Bytes) : Option (I.Pub × Bytes) :=
  match v.accept frame with
  | none => none
  | some a =>
    match receivers.get a.sender with
    | none => none
    | some recv =>
      match (recv.openAt o opens t t' a.ctr a.header a.ct).2 with
      | .error _ => none
      | .ok pt => some (a.sender, pt)

/-- Whom a frame is made for. -/
def others (s : Session I) : List I.Pub := s.members.filter fun m => decide (m ≠ s.me)

/-- Not in the roster; and the MAC of a member who shares its id is none under a key of its own. -/
structure Outside (s v : Session I) (header ct : Bytes) : Prop where
  out : v.me ∉ s.members
  macs : ∀ m ∈ s.members, I.senderIdOf m = I.senderIdOf v.me →
    ∀ p, verify (v.macKeyFor p) header ct (I.tag (s.macKeyFor m) header ct) = false

/-- The frame of a plaintext opens for every other member with the sender's chain at `c`, whatever else was sealed, and
for nobody else. -/
structure Reaches (o : ReceiverOpts) (s : Session I) (ck : S.Key) (w : SendChain S) (pt : Bytes) (c : Nat) : Prop where
  members : ∀ (log : Log S) (v : Session I) receivers (r : SenderReceiver S) t t',
    s.sealNext w pt ∈ log → (log.map fun b => (b.key, b.nonce)).Nodup →
    SameGroup s v → v.me ∈ s.members → v.me ≠ s.me → receivers.get s.me = some r → r.Tracks ck → r.n = c →
      v.receive o (Box.openIn log) receivers t t' (s.send w pt).1 = some (s.me, pt)
  outsiders : ∀ (opens : Open S) (v : Session I) receivers t t',
    Outside s v (encodeHeader (s.headerAt w.n)) (s.sealNext w pt).ct →
      v.receive o opens receivers t t' (s.send w pt).1 = none

variable {s v : Session I}

theorem mem_others {m : I.Pub} : m ∈ s.others ↔ m ∈ s.members ∧ m ≠ s.me := by
  rw [others, List.mem_filter, decide_eq_true_eq]

theorem ctr_headerAt (s : Session I) (n : Nat) : (decodeHeader (encodeHeader (s.headerAt n))).ctr = n % 2 ^ 32 := by
  rw [decodeHeader_encodeHeader (s.headerAt_fits n)]
  rfl

/-! ## Who finds a record of its own -/

/-- What is accepted is of another member, and a MAC of that member was found under the session's own id. -/
theorem accept_some {frame : Bytes} {a : Accepted I} (h : v.accept frame = some a) :
    a.sender ≠ v.me ∧ a.sender ∈ v.members ∧ (decodeHeader a.header).senderId = I.senderIdOf a.sender ∧
      ∃ f, readFrame frame = some f ∧ f.header = a.header ∧ f.ct = a.ct ∧
        ∃ r ∈ f.recips, r.1 = I.senderIdOf v.me ∧ verify (v.macKeyFor a.sender) a.header a.ct r.2 = true := by
  rw [accept] at h
  obtain ⟨f, hf, h⟩ := Option.bind_eq_some_iff.mp h
  obtain ⟨sender, hsender, h⟩ := Option.bind_eq_some_iff.mp h
  split at h
  · cases h
  · rename_i hne
    obtain ⟨mine, hmine, h⟩ := Option.bind_eq_some_iff.mp h
    split at h
    · rename_i hverify
      obtain rfl := Option.some.inj h
      obtain ⟨m, hm, hid, rfl⟩ | hnone := OrdMap.get_foldl_set_some (v := id) hsender
      · obtain ⟨r, hr, hrid, rfl⟩ | hnone := OrdMap.get_foldl_set_some hmine
        · exact ⟨hne, hm, hid.symm, f, hf, rfl, rfl, r, hr, hrid, hverify⟩
        · cases hnone
      · cases hnone
    · cases h

theorem accept_record {frame : Bytes} {f : Frame} {a : Accepted I} (hf : readFrame frame = some f)
    (h : v.accept frame = some a) : ∃ r ∈ f.recips, r.1 = I.senderIdOf v.me ∧
      ∃ p, verify (v.macKeyFor p) f.header f.ct r.2 = true := by
  obtain ⟨-, -, -, f', hf', hheader, hct, r, hr, hid, hverify⟩ := accept_some h
  rw [hf] at hf'
  obtain rfl := Option.some.inj hf'
  exact ⟨r, hr, hid, a.sender, by rw [hheader, hct, hverify]⟩

theorem receive_of_accept_none {o : ReceiverOpts} {opens : Open S} {receivers : OrdMap I.Pub (SenderReceiver S)}
    {t t' : Time} {frame : Bytes} (h : v.accept frame = none) : v.receive o opens receivers t t' frame = none := by
  rw [receive, h]

theorem accept_outside {ct : Bytes} {n : Nat} (hcount : s.others.length < 256)
    (h : Outside s v (encodeHeader (s.headerAt n)) ct) :
    v.accept (encodeFrame (s.frameFor (encodeHeader (s.headerAt n)) ct)) = none := by
  have hread := readFrame_encodeFrame (s.frameFor_fits n ct) (by simpa [frameFor, others] using hcount)
  by_contra hne
  obtain ⟨a, ha⟩ := Option.ne_none_iff_exists'.mp hne
  obtain ⟨r, hr, hid, p, hverify⟩ := accept_record hread ha
  obtain ⟨m, hm, rfl⟩ := List.mem_map.mp hr
  have hfalse := h.macs m (mem_others.mp hm).1 hid p
  rw [frameFor] at hverify
  rw [hfalse] at hverify
  cases hverify

/-- From 256 others on, the last of them is past the count. -/
theorem accept_last (ct : Bytes) (n : Nat) {m : I.Pub} (hnd : s.members.Nodup) (hid : s.IdsDistinct)
    (hcount : 256 ≤ s.others.length) (hm : s.others.getLast? = some m) (hv : v.me = m) :
    v.accept (encodeFrame (s.frameFor (encodeHeader (s.headerAt n)) ct)) = none := by
  have hread := readFrame_wrapped (s.frameFor_fits n ct)
  by_contra hne
  obtain ⟨a, ha⟩ := Option.ne_none_iff_exists'.mp hne
  obtain ⟨r, hr, hrid, -⟩ := accept_record hread ha
  have hlen : (s.frameFor (encodeHeader (s.headerAt n)) ct).recips.length = s.others.length := by
    rw [frameFor, List.length_map]
    rfl
  rw [Frame.wrapped, hlen] at hr
  have htake : (s.frameFor (encodeHeader (s.headerAt n)) ct).recips.take (s.others.length % 256) =
      (s.others.take (s.others.length % 256)).map fun m =>
        (I.senderIdOf m, I.tag (s.macKeyFor m) (encodeHeader (s.headerAt n)) ct) := by
    rw [frameFor, List.map_take]
    rfl
  rw [htake] at hr
  obtain ⟨p, hp, rfl⟩ := List.mem_map.mp hr
  have hmem : m ∈ s.others := List.mem_of_getLast? hm
  have hpm : p = m := hid p (mem_others.mp (List.mem_of_mem_take hp)).1 m (mem_others.mp hmem).1 (hv ▸ hrid)
  subst hpm
  -- the last stands once, and not among the first `length % 256`
  have hnd' : s.others.Nodup := hnd.filter _
  obtain ⟨i, hi, hget⟩ := List.mem_iff_getElem.mp hp
  have hlt := Nat.mod_lt s.others.length (by decide : 0 < 256)
  rw [List.length_take] at hi
  rw [List.getElem_take] at hget
  rw [List.getLast?_eq_getElem?, List.getElem?_eq_some_iff] at hm
  obtain ⟨hlast, hm⟩ := hm
  have hij : i = s.others.length - 1 := hnd'.getElem_inj_iff.mp (hget.trans hm.symm)
  omega

/-! ## Who opens it -/

section Opening

variable {o : ReceiverOpts} {ck : S.Key} {w : SendChain S} {pt : Bytes} {c : Nat}

theorem sealNext_key (hw : w.key = S.chain.chainAt ck w.n) : (s.sealNext w pt).key = S.chain.keyAt ck w.n := by
  rw [sealNext, aeadBox, hw]
  rfl

/-- A member that can reach the counter opens the frame. -/
theorem receive_member (hI : I.Symmetric) (hid : s.IdsDistinct) (hs : s.me ∈ s.members)
    (hw : w.key = S.chain.chainAt ck w.n) (hcount : s.others.length < 256) (hn : w.n < 2 ^ 32) {log : Log S}
    {receivers : OrdMap I.Pub (SenderReceiver S)} {r : SenderReceiver S} {t t' : Time} (hlog : s.sealNext w pt ∈ log)
    (hnd : (log.map fun b => (b.key, b.nonce)).Nodup) (hsv : SameGroup s v) (hv : v.me ∈ s.members) (hne : v.me ≠ s.me)
    (hr : receivers.get s.me = some r) (htracks : r.Tracks ck) (hle : r.n ≤ w.n) (hskip : w.n - r.n ≤ o.maxSkip) :
    v.receive o (Box.openIn log) receivers t t' (s.send w pt).1 = some (s.me, pt) := by
  have haccept := accept_frameFor hI hsv hid hs hv hne.symm hcount w.n (s.sealNext w pt).ct
  have hctr : (decodeHeader (encodeHeader (s.headerAt w.n))).ctr = w.n := by
    rw [ctr_headerAt, Nat.mod_eq_of_lt hn]
  have hopen : Box.openIn log (S.chain.keyAt ck w.n) (S.aeadNonce (S.chain.keyAt ck w.n) (Bytes.u32be w.n))
      (encodeHeader (s.headerAt w.n)) (s.sealNext w pt).ct = some pt := by
    have hsealed := Box.openIn_sealed hnd hlog
    simpa only [sealNext, aeadBox, hw, KeyChain.keyAt] using hsealed
  have hok : (r.openAt o (Box.openIn log) t t' w.n (encodeHeader (s.headerAt w.n)) (s.sealNext w pt).ct).2 = .ok pt :=
    SenderReceiver.openAt_ok htracks (Or.inr ⟨hle, hskip⟩) hopen
  simp only [receive, send, haccept, hr, Accepted.ctr, hctr, hok]

/-- One other member at the chain's position `c` opens the frame only if the counter is in reach of it. -/
theorem reach_of_receive {Start : S.Key → Prop} (hC : S.chain.Ideal Start) (hck : Start ck) (hI : I.Symmetric)
    (hid : s.IdsDistinct) (hs : s.me ∈ s.members) (hw : w.key = S.chain.chainAt ck w.n)
    (hcount : s.others.length < 256) {receivers : OrdMap I.Pub (SenderReceiver S)} {t t' : Time}
    (hsv : SameGroup s v) (hv : v.me ∈ s.members) (hne : v.me ≠ s.me)
    (hr : receivers.get s.me = some (.make (S.chain.chainAt ck c) c))
    (h : v.receive o (Box.openIn [s.sealNext w pt]) receivers t t' (s.send w pt).1 = some (s.me, pt)) :
    w.n - c ≤ o.maxSkip ∧ w.n < 2 ^ 32 := by
  have haccept := accept_frameFor hI hsv hid hs hv hne.symm hcount w.n (s.sealNext w pt).ct
  have htracks : (SenderReceiver.make (S.chain.chainAt ck c) c).Tracks ck := .make c
  simp only [receive, send, haccept, hr, Accepted.ctr, ctr_headerAt] at h
  -- the key that is tried is the one of the counter on the wire, and the log knows the one that sealed
  have hreach : ∃ cand, ((SenderReceiver.make (S.chain.chainAt ck c) c).prune o t).start o (w.n % 2 ^ 32) = .ok cand ∧
      (SenderReceiver.tryOpen (Box.openIn [s.sealNext w pt]) cand (w.n % 2 ^ 32) (encodeHeader (s.headerAt w.n))
        (s.sealNext w pt).ct).isSome := by
    unfold SenderReceiver.openAt at h
    cases hstart : ((SenderReceiver.make (S.chain.chainAt ck c) c).prune o t).start o (w.n % 2 ^ 32) with
    | error e => simp only [hstart] at h; cases h
    | ok cand =>
        refine ⟨cand, rfl, ?_⟩
        cases hopen : SenderReceiver.tryOpen (Box.openIn [s.sealNext w pt]) cand (w.n % 2 ^ 32)
            (encodeHeader (s.headerAt w.n)) (s.sealNext w pt).ct with
        | none => simp only [hstart, hopen] at h; cases h
        | some pt' => rfl
  obtain ⟨cand, hstart, hopen⟩ := hreach
  obtain ⟨pt', hopen⟩ := Option.isSome_iff_exists.mp hopen
  obtain ⟨b, hb, hmatch, -⟩ := Box.openIn_eq_some hopen
  rw [List.mem_singleton] at hb
  subst hb
  have hkey := hmatch.1
  rw [(htracks.prune t).keyAt hstart, sealNext_key hw] at hkey
  have hn : w.n = w.n % 2 ^ 32 := (hC.keyAt_eq hck hck hkey).2
  constructor
  · rw [← hn] at hstart
    obtain ⟨st, hst, -⟩ | ⟨-, -, hskip, -⟩ := SenderReceiver.start_ok.mp hstart
    · exact absurd (SenderReceiver.get_prune.mp hst).1 (by simp [SenderReceiver.make])
    · exact hskip
  · omega

/-- `v`'s view of the sender's group. -/
def viewOf (s : Session I) (me : I.Pub) : Session I := { s with me }

/-- The last of 256 others or more is left out. -/
theorem count_of_reaches (hnd : s.members.Nodup) (hid : s.IdsDistinct) (h : Reaches o s ck w pt c) :
    s.others.length < 256 := by
  by_contra hmany
  obtain ⟨m, hm⟩ := Option.isSome_iff_exists.mp
    (List.getLast?_isSome.mpr (List.ne_nil_of_length_pos (by omega : 0 < s.others.length)))
  obtain ⟨hmem, hne⟩ := mem_others.mp (List.mem_of_getLast? hm)
  let r : SenderReceiver S := .make (S.chain.chainAt ck c) c
  have hopens := h.members [s.sealNext w pt] (viewOf s m) (OrdMap.empty.set s.me r) r 0 0 (List.mem_singleton_self _)
    (List.nodup_singleton _) ⟨rfl, rfl, rfl⟩ hmem hne (OrdMap.get_set_self ..) (.make c) rfl
  have hlast := accept_last (v := viewOf s m) (s.sealNext w pt).ct w.n hnd hid (by omega) hm rfl
  rw [send, receive_of_accept_none hlast] at hopens
  cases hopens

/-- A group frame reaches everybody it is made for exactly if the count byte can count them, the counter is within the
skip bound of where they hold the chain, and it fits its four bytes. -/
theorem reaches_iff {Start : S.Key → Prop} (hC : S.chain.Ideal Start) (hck : Start ck) (hI : I.Symmetric)
    (hnd : s.members.Nodup) (hid : s.IdsDistinct) (hs : s.me ∈ s.members) (hw : w.key = S.chain.chainAt ck w.n)
    (hc : c ≤ w.n) (o : ReceiverOpts) (pt : Bytes) :
    Reaches o s ck w pt c ↔
      s.others = [] ∨ s.others.length ≤ 255 ∧ w.n - c ≤ o.maxSkip ∧ w.n < 2 ^ 32 := by
  constructor
  · intro h
    by_cases hnone : s.others = []
    · exact Or.inl hnone
    · right
      have hcount := count_of_reaches hnd hid h
      obtain ⟨m, hm⟩ := List.exists_mem_of_ne_nil _ hnone
      obtain ⟨hmem, hne⟩ := mem_others.mp hm
      have hsv : SameGroup s (viewOf s m) := ⟨rfl, rfl, rfl⟩
      let r : SenderReceiver S := .make (S.chain.chainAt ck c) c
      have hopens := h.members [s.sealNext w pt] (viewOf s m) (OrdMap.empty.set s.me r) r 0 0 (List.mem_singleton_self _)
        (List.nodup_singleton _) hsv hmem hne (OrdMap.get_set_self ..) (.make c) rfl
      exact ⟨by omega, reach_of_receive hC hck hI hid hs hw hcount hsv hmem hne (OrdMap.get_set_self ..) hopens⟩
  · rintro (hnone | ⟨hcount, hskip, hn⟩)
    · constructor
      · intro log v receivers r t t' _ _ _ hv hne
        have hmem := mem_others.mpr ⟨hv, hne⟩
        rw [hnone] at hmem
        cases hmem
      · intro opens v receivers t t' hout
        exact receive_of_accept_none (accept_outside (by rw [hnone, List.length_nil]; omega) hout)
    · constructor
      · intro log v receivers r t t' hlog hnodup hsv hv hne hr htracks hrc
        subst hrc
        exact receive_member hI hid hs hw (by omega) hn hlog hnodup hsv hv hne hr htracks hc hskip
      · intro opens v receivers t t' hout
        exact receive_of_accept_none (accept_outside (by omega) hout)

end Opening

end Session

/-! ## A roster of 257 -/

namespace Symbolic

theorem length_crowd_tag (k header ct : Bytes) : ((k ++ (ct ++ (header ++ List.replicate 32 0))).take 32).length = 32 := by
  simp
  omega

theorem length_crowd_id (p : UInt16) : (Bytes.u16be p.toNat ++ List.replicate 6 0).length = 8 := by
  simp

/-- Members are named by two bytes. -/
def crowd : Identities where
  Pub := UInt16
  senderIdOf p := Bytes.u16be p.toNat ++ List.replicate 6 0
  MacKey := Bytes
  msgMacKeyFor a b gid epoch := Bytes.u16be (min a.toNat b.toNat) ++ Bytes.u16be (max a.toNat b.toNat) ++
    (gid ++ Bytes.u32be epoch)
  tag k header ct := (k ++ (ct ++ (header ++ List.replicate 32 0))).take 32
  length_senderIdOf := length_crowd_id
  length_tag := length_crowd_tag

theorem crowd_symmetric : crowd.Symmetric := by
  intro (a : UInt16) (b : UInt16) gid epoch
  show Bytes.u16be (min a.toNat b.toNat) ++ _ ++ _ = Bytes.u16be (min b.toNat a.toNat) ++ _ ++ _
  rw [Nat.min_comm, Nat.max_comm]

/-- A group of `n`, as its first member has it. -/
def crowdOf (n : Nat) : Session crowd where
  me := (0 : UInt16)
  gid := List.replicate 16 0
  epoch := 0
  members := (List.range n).map UInt16.ofNat
  length_gid := rfl

theorem crowdOf_ids (n : Nat) : (crowdOf n).IdsDistinct := by
  intro (a : UInt16) _ (b : UInt16) _ he
  have hpre := List.append_cancel_right (he : Bytes.u16be a.toNat ++ _ = Bytes.u16be b.toNat ++ _)
  have hnat := congrArg Bytes.toNat hpre
  rw [Bytes.u16be, Bytes.u16be, Bytes.toNat_ofNat, Bytes.toNat_ofNat] at hnat
  have ha := a.toNat_lt
  have hb := b.toNat_lt
  exact UInt16.toNat.inj (by omega)

/-- Two bytes tell 65536 members apart. -/
theorem crowdOf_nodup {n : Nat} (hn : n ≤ 65536) : (crowdOf n).members.Nodup := by
  show ((List.range n).map UInt16.ofNat).Nodup
  refine List.nodup_range.map_on ?_
  intro i hi j hj heq
  have hi' : i < UInt16.size := (List.mem_range.mp hi).trans_le hn
  have hj' : j < UInt16.size := (List.mem_range.mp hj).trans_le hn
  rw [← UInt16.toNat_ofNat_of_lt' hi', ← UInt16.toNat_ofNat_of_lt' hj']
  exact congrArg UInt16.toNat heq

/-- Among three, the fifth frame reaches whoever holds the chain at its start. -/
theorem reaches_three :
    Session.Reaches {} (crowdOf 3) seed ⟨suite.chain.chainAt seed 5, 5⟩ [104, 105] 0 ↔
      (crowdOf 3).others = [] ∨ (crowdOf 3).others.length ≤ 255 ∧ 5 - 0 ≤ MAX_SKIP ∧ 5 < 2 ^ 32 :=
  Session.reaches_iff (w := ⟨suite.chain.chainAt seed 5, 5⟩) (c := 0) ideal ⟨0, rfl⟩ crowd_symmetric (by decide)
    (crowdOf_ids 3) (by decide) rfl (by decide) {} [104, 105]

/-- Among 257 nothing that the first member sends reaches all. -/
theorem crowd_unreached : ¬ Session.Reaches {} (crowdOf 257) seed ⟨seed, 0⟩ [] 0 := by
  intro h
  have hcount := Session.count_of_reaches (crowdOf_nodup (by decide)) (crowdOf_ids 257) h
  have hlen : (crowdOf 257).others.length = 256 := by decide +kernel
  omega

end Symbolic

end EncedoChat.Group
