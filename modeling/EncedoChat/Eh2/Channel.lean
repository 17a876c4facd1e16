import Mathlib.Data.List.Perm.Subperm
import EncedoChat.Eh2.Duplex
import EncedoChat.Handshake.Agreement

/-!
# A secure channel

The ratchets that `ratchetFrom` makes of what the handshake gave each side: what an authenticated peer is heard to say,
it has said in that session, once and unaltered.
-/

namespace EncedoChat.Eh2

/-- The primitives of the handshake, and what the ratchet calls besides. -/
structure Joint where
  base : Handshake.Primitives
  Nonce : Type
  [decNonce : DecidableEq Nonce]
  length_pub : ∀ x, (base.pub x).length = 32
  dhStep : Bytes → RootIkm Bytes Bytes → Bytes × Bytes
  chain : KeyChain Bytes
  aeadNonce : Bytes → Bytes → Nonce
  aeadSeal : Bytes → Nonce → Bytes → Bytes → Bytes

attribute [instance] Joint.decNonce

def Joint.suite (J : Joint) : Suite where
  Key := Bytes
  Priv := J.base.Priv
  Shared := Bytes
  KemKey := J.base.KemKey
  Ss := Bytes
  Coins := J.base.Coins
  Nonce := J.Nonce
  pub := fun x => ⟨J.base.pub x, J.length_pub x⟩
  dh := fun x p => J.base.dh x p.1
  kemPub := J.base.kemPub
  encapsulate := J.base.encapsulate
  decapsulate := J.base.decapsulate
  dhStep := J.dhStep
  chain := J.chain
  aeadNonce := J.aeadNonce
  aeadSeal := J.aeadSeal

variable {J : Joint}

/-- What the handshake returned is what the ratchet is made of. -/
structure Same (r : Handshake.HandshakeResult J.base) (q : HandshakeResult J.suite) : Prop where
  role : r.role = .initiator ↔ q.role = .initiator
  sk : r.sk = q.sk
  ekSelf : r.ekSelf = q.ekSelf
  ekPeerPub : r.ekPeerPub = q.ekPeerPub.1
  firstStepIkm : r.firstStepIkm = q.firstStepIkm

/-! ## What the two sides of a duplex hear -/

namespace Duplex

variable {S : Suite} {o : Opts}

structure Secure (m : Duplex S) : Prop where
  authentic : ∀ q ∈ m.opened, ∃ e ∈ m.sealed, e.sender = q.receiver.other ∧ e.frame = q.frame ∧ e.pt = q.pt
  once : (m.opened.map fun q => (q.receiver, q.frame)).Nodup
  keys : (m.sealed.map fun e => (e.key, e.nonce)).Nodup
  /-- no side is heard more often than it spoke -/
  counted : ∀ X : Role, (m.opened.filter fun q => q.receiver = X).length ≤
    (m.sealed.filter fun e => e.sender = X.other).length

theorem counted_of_once {opened : List Opened} {sealed : List (Sealed S)}
    (hauth : ∀ q ∈ opened, ∃ e ∈ sealed, e.sender = q.receiver.other ∧ e.frame = q.frame ∧ e.pt = q.pt)
    (honce : (opened.map fun q => (q.receiver, q.frame)).Nodup) (X : Role) :
    (opened.filter fun q => q.receiver = X).length ≤ (sealed.filter fun e => e.sender = X.other).length := by
  have hnd : ((opened.filter fun q => q.receiver = X).map Opened.frame).Nodup := by
    refine List.Nodup.map_on ?_ ((List.Nodup.of_map _ honce).filter _)
    intro q hq q' hq' hframe
    obtain ⟨hq, hX⟩ := List.mem_filter.mp hq
    obtain ⟨hq', hX'⟩ := List.mem_filter.mp hq'
    refine List.inj_on_of_nodup_map honce hq hq' ?_
    rw [hframe, of_decide_eq_true hX, of_decide_eq_true hX']
  have hsub : ((opened.filter fun q => q.receiver = X).map Opened.frame) ⊆
      (sealed.filter fun e => e.sender = X.other).map Sealed.frame := by
    intro b hb
    obtain ⟨q, hq, rfl⟩ := List.mem_map.mp hb
    obtain ⟨hq, hX⟩ := List.mem_filter.mp hq
    obtain ⟨e, he, hs, hf, -⟩ := hauth q hq
    rw [of_decide_eq_true hX] at hs
    exact List.mem_map.mpr ⟨e, List.mem_filter.mpr ⟨he, decide_eq_true hs⟩, hf⟩
  have hlen := (List.subperm_of_subset hnd hsub).length_le
  rwa [List.length_map, List.length_map] at hlen

/-- However the calls overlap, up to those still open they are calls one after another. -/
theorem secure (I : S.Ideal) {prog : Role → Call S → Prog (Ratchet S) (Answer S)}
    (hprog : ∀ X c s, (prog X c).run s = c.exec o X s) {hs : Session S} {now : Role → Time} {m : Duplex S}
    (h : Reach (act prog) Ok (start hs now) m) : m.Secure := by
  obtain ⟨w, hw, hf⟩ := follows hprog h
  obtain ⟨cs, hi⟩ := Inv.reach I hw
  have hauth : ∀ q ∈ m.opened, ∃ e ∈ m.sealed, e.sender = q.receiver.other ∧ e.frame = q.frame ∧ e.pt = q.pt := by
    rw [hf.opened, hf.sealed]
    intro q hq
    obtain ⟨e, he, c, -, hd, len, -, hlog, hframe, hpt, howner, -⟩ := hi.opened q hq
    exact ⟨e, he, hlog.sender.trans howner, hframe, hpt⟩
  have honce : (m.opened.map fun q => (q.receiver, q.frame)).Nodup := hf.opened ▸ hi.once
  exact ⟨hauth, honce, hf.sealed ▸ hi.key_nonce_nodup, counted_of_once hauth honce⟩

end Duplex

/-! ## The handshakes -/

section
variable {C : Handshake.Primitives}

open Handshake (InitiatorState Setting)

/-- The ephemeral keys of the sessions there are. -/
def drawn (w : Handshake.World C) : List Bytes :=
  w.begun.map (fun s => C.pub s.ekI) ++ w.answers.map fun a => C.pub a.ekR

/-- A key that is drawn is one that nobody has. -/
def Fresh (w : Handshake.World C) : Handshake.WorldAct C → Prop
  | .initiate _ _ _ ekI _ _ _ => C.pub ekI ∉ drawn w
  | .respond _ _ _ _ ekR _ _ _ => C.pub ekR ∉ drawn w
  | _ => True

structure Grown (w : Handshake.World C) : Prop where
  completed : ∀ c ∈ w.completed, c.state ∈ w.begun
  finished : ∀ f ∈ w.finished, f.answer ∈ w.answers
  apart : ∀ s ∈ w.begun, ∀ a ∈ w.answers, C.pub s.ekI ≠ C.pub a.ekR

theorem grown_start : Grown (Handshake.World.start : Handshake.World C) :=
  ⟨fun _ h => (by cases h), fun _ h => (by cases h), fun _ h => (by cases h)⟩

theorem initiate_ekI {ik ekI : C.Priv} {peerIkPub tagKey msg1 : Bytes} {pq : C.KemKey} {now maxSkewMs : Time}
    {s : InitiatorState C} (h : Handshake.initiate ik peerIkPub tagKey ekI pq now maxSkewMs = .ok (msg1, s)) :
    s.ekI = ekI := by
  simp only [Handshake.initiate, bind_ok, exists_unit, Handshake.wired_ok, pure, Except.pure, Except.ok.injEq,
    Prod.mk.injEq] at h
  obtain ⟨-, tag, -, b, -, -, rfl⟩ := h
  rfl

theorem Grown.act {w : Handshake.World C} (h : Grown w) {a : Handshake.WorldAct C} (hfresh : Fresh w a) :
    Grown (w.act a) := by
  cases a with
  | initiate ik peerIkPub tagKey ekI pq now maxSkewMs =>
      rw [Handshake.World.act]
      split
      · exact h
      · next msg1 s hs =>
        refine ⟨fun c hc => List.mem_append_left _ (h.completed c hc), h.finished, fun s' hs' a ha => ?_⟩
        rcases List.mem_append.mp hs' with hs' | hs'
        · exact h.apart s' hs' a ha
        · obtain rfl := List.mem_singleton.mp hs'
          rw [initiate_ekI hs]
          intro heq
          exact hfresh (List.mem_append_right _ (List.mem_map.mpr ⟨a, ha, heq.symm⟩))
  | complete i msg2 now =>
      rw [Handshake.World.act]
      split
      · exact h
      · next s hs =>
        split
        · exact h
        · refine ⟨fun c hc => ?_, h.finished, h.apart⟩
          rcases List.mem_cons.mp hc with rfl | hc
          · exact List.mem_of_getElem? hs
          · exact h.completed c hc
  | respond ik peerIkPub tagKey msg1 ekR coins now maxSkewMs =>
      rw [Handshake.World.act]
      split
      · exact h
      · refine ⟨h.completed, fun f hf => ?_, fun s hs a ha => ?_⟩
        · rw [Handshake.World.answers_append]
          exact List.mem_append_left _ (h.finished f hf)
        · rw [Handshake.World.answers_append] at ha
          rcases List.mem_append.mp ha with ha | ha
          · exact h.apart s hs a ha
          · obtain rfl := List.mem_singleton.mp ha
            intro heq
            exact hfresh (List.mem_append_left _ (List.mem_map.mpr ⟨s, hs, heq⟩))
  | finish j msg3 =>
      rw [Handshake.World.act]
      split
      · exact h
      · next a st ha =>
        have hans : ∀ st', ({ w with answered := w.answered.set j (a, st') } : Handshake.World C).answers = w.answers :=
          fun st' => Handshake.World.answers_set ha
        split
        · exact ⟨h.completed, fun f hf => hans _ ▸ h.finished f hf, fun s hs b hb => h.apart s hs b (hans _ ▸ hb)⟩
        · refine ⟨h.completed, fun f hf => ?_, fun s hs b hb => h.apart s hs b (hans _ ▸ hb)⟩
          rcases List.mem_cons.mp hf with rfl | hf
          · exact (hans _).symm ▸ List.mem_map.mpr ⟨_, List.mem_of_getElem? ha, rfl⟩
          · exact (hans _).symm ▸ h.finished f hf

/-- What the network did to the handshakes. -/
def Run (A : Setting C) (w : Handshake.World C) : Prop :=
  Reach Handshake.World.act (fun w a => Handshake.Ideal A w a ∧ Handshake.Untouched w a ∧ Fresh w a) .start w

theorem Run.inv {A : Setting C} {w : Handshake.World C} (h : Run A w) : w.Inv A ∧ Grown w := by
  refine h.invariant (I := fun w => w.Inv A ∧ Grown w) ⟨Handshake.World.inv_start, grown_start⟩ ?_
  rintro w a ⟨hw, hg⟩ ⟨hi, hu, hfresh⟩
  refine ⟨?_, hg.act hfresh⟩
  cases a with
  | initiate ik peerIkPub tagKey ekI pq now maxSkewMs => exact hw.initiate hi
  | complete i msg2 now => exact hw.complete hi
  | respond ik peerIkPub tagKey msg1 ekR coins now maxSkewMs => exact hw.respond hi
  | finish j msg3 => exact hw.finish hi hu

end

/-! ## The channel -/

open Handshake (Completion Setting Matches)

/-- The two sides of one handshake are a session of two ratchets. -/
theorem session_of_matches {A : Setting J.base} {w : Handshake.World J.base} (h : Run A w) {c : Completion J.base}
    {a : Handshake.Answer J.base} (hc : c ∈ w.completed) (ha : a ∈ w.answers) (hm : Matches c a) :
    ∃ hs : Session J.suite, Same c.result (hs.result .initiator) ∧
      Same (Handshake.Gate.resultOf J.base a.state) (hs.result .responder) := by
  obtain ⟨hinv, hgrown⟩ := h.inv
  obtain ⟨m, d1, d2, d3, ss, t, hcomp⟩ := hinv.completed c hc
  obtain ⟨coins, m1, m', e1, e2, e3, ss', t', hans⟩ := hinv.answered a ha
  obtain ⟨b1, hb1, hek⟩ := hcomp.begun.msg1
  have hm1 : m1 = b1 := by
    have := hans.answered.decoded
    rw [hm.msg1, hb1] at this
    exact (Except.ok.inj this).symm
  have hm2 : m' = m := by
    have := hans.answered.msg2
    rw [hm.msg2, hcomp.completed.decoded] at this
    exact (Except.ok.inj this).symm
  have hekR : m.ekPub = J.base.pub a.ekR := hm2 ▸ hans.answered.ekPub
  have hres := hcomp.completed.result
  refine ⟨⟨c.result.sk, c.state.ekI, a.ekR, d3, ?_, ?_⟩, ⟨?_, rfl, ?_, ?_, ?_⟩, ⟨?_, hm.sk, rfl, ?_, ?_⟩⟩
  · show J.base.dh c.state.ekI (J.base.pub a.ekR) = some d3
    rw [← hekR]
    exact hcomp.completed.dh3
  · exact fun heq => hgrown.apart _ (hgrown.completed c hc) a ha (congrArg Subtype.val heq)
  · exact ⟨fun _ => rfl, fun _ => congrArg Handshake.HandshakeResult.role hres⟩
  · exact congrArg Handshake.HandshakeResult.ekSelf hres
  · exact (congrArg Handshake.HandshakeResult.ekPeerPub hres).trans hekR
  · exact congrArg Handshake.HandshakeResult.firstStepIkm hres
  · exact ⟨fun h => (by cases h), fun h => (by cases h)⟩
  · show a.state.ekPeerPub = J.base.pub c.state.ekI
    rw [hans.answered.state, hm1, hek]
  · exact hm.firstStepIkm.trans (congrArg Handshake.HandshakeResult.firstStepIkm hres)

/-- Ratchets of two results are a secure duplex in every run of theirs. -/
def Channel (o : Opts) (r r' : Handshake.HandshakeResult J.base) : Prop :=
  ∃ hs : Session J.suite, Same r (hs.result .initiator) ∧ Same r' (hs.result .responder) ∧
    ∀ prog : Role → Call J.suite → Prog (Ratchet J.suite) (Answer J.suite),
      (∀ X c s, (prog X c).run s = c.exec o X s) → ∀ (now : Role → Time) m,
        Reach (Duplex.act prog) Duplex.Ok (Duplex.start hs now) m → m.Secure

theorem channel_of_matches (I : J.suite.Ideal) {o : Opts} {A : Setting J.base} {w : Handshake.World J.base}
    (h : Run A w) {c : Completion J.base} {a : Handshake.Answer J.base} (hc : c ∈ w.completed) (ha : a ∈ w.answers)
    (hm : Matches c a) : Channel o c.result (Handshake.Gate.resultOf J.base a.state) := by
  obtain ⟨hs, hI, hR⟩ := session_of_matches h hc ha hm
  exact ⟨hs, hI, hR, fun prog hprog now m hreach => Duplex.secure I hprog hreach⟩

namespace Symbolic

/-- A string that shows where it ends. -/
def code (b : Bytes) : Bytes := b.flatMap (fun x => [1, x]) ++ [0]

theorem code_inj {a b x y : Bytes} (h : code a ++ x = code b ++ y) : a = b ∧ x = y := by
  induction a generalizing b with
  | nil =>
      cases b with
      | nil => exact ⟨rfl, (List.cons.inj h).2⟩
      | cons c b => cases (List.cons.inj h).1
  | cons c a ih =>
      cases b with
      | nil => cases (List.cons.inj h).1
      | cons d b =>
          obtain ⟨hcd, hrest⟩ := List.cons.inj (List.cons.inj h).2
          obtain ⟨hab, hxy⟩ := ih hrest
          exact ⟨by rw [hcd, hab], hxy⟩

def codeIkm : RootIkm Bytes Bytes → Bytes
  | .classical dh => 0 :: code dh
  | .hybrid dh ss => 1 :: (code dh ++ code ss)

theorem codeIkm_inj {i j : RootIkm Bytes Bytes} (h : codeIkm i = codeIkm j) : i = j := by
  cases i with
  | classical d =>
      cases j with
      | classical e =>
          have htail : code d ++ [] = code e ++ [] := by rw [(List.cons.inj h).2]
          rw [(code_inj htail).1]
      | hybrid e s => cases (List.cons.inj h).1
  | hybrid d s =>
      cases j with
      | classical e => cases (List.cons.inj h).1
      | hybrid e t =>
          obtain ⟨hde, hst⟩ := code_inj (List.cons.inj h).2
          have htail : code s ++ [] = code t ++ [] := by rw [hst]
          rw [hde, (code_inj htail).1]

/-- The symbolic handshake, with derivations that keep what they are given. -/
def joint : Joint where
  base := Handshake.Symbolic.primitives
  Nonce := Bytes
  length_pub := fun x => Handshake.Symbolic.length_pad (b := [x]) (by decide : 1 ≤ 32)
  dhStep := fun rk ikm => (4 :: (code rk ++ codeIkm ikm), 5 :: (code rk ++ codeIkm ikm))
  chain := ⟨(2 :: ·), (3 :: ·)⟩
  aeadNonce := fun _ n => n
  aeadSeal := fun _ _ _ pt => pt ++ List.replicate 16 0

theorem dh_comm (a b : UInt8) :
    Handshake.Symbolic.dh a (Handshake.Symbolic.pub b) = Handshake.Symbolic.dh b (Handshake.Symbolic.pub a) := by
  rw [Handshake.Symbolic.dh_pub, Handshake.Symbolic.dh_pub]
  rcases UInt8.le_total a b with hab | hab
  · by_cases hba : b ≤ a
    · rw [UInt8.le_antisymm hab hba]
    · rw [if_pos hab, if_neg hba]
  · by_cases hba : a ≤ b
    · rw [UInt8.le_antisymm hba hab]
    · rw [if_neg hba, if_pos hab]

theorem joint_ideal : joint.suite.Ideal where
  dh_some _ _ := rfl
  dh_comm (a b : UInt8) := congrArg some (dh_comm a b)
  dh_inj {a b a' b'} h := by
    rcases Handshake.Symbolic.dh_inj (Option.some.inj h) with ⟨ha, hb⟩ | ⟨ha, hb⟩
    · exact .inl ⟨ha ▸ rfl, Subtype.ext hb.symm⟩
    · exact .inr ⟨Subtype.ext hb.symm, ha ▸ rfl⟩
  dhStep_ck_inj h := by
    obtain ⟨hrk, hikm⟩ := code_inj (List.cons.inj h).2
    exact ⟨hrk, codeIkm_inj hikm⟩
  chain := {
    messageKey_inj := fun h => (List.cons.inj h).2
    chainNext_inj := fun h => (List.cons.inj h).2
    chainNext_not_start := by
      rintro a ⟨rk, i, h⟩
      cases (List.cons.inj h).1 }
  encapsulate_some _ _ := rfl
  decapsulate h := by
    cases h
    rfl
  kemPub_fits (k : UInt8) := by
    rintro b ⟨⟩
    have hlen : (Handshake.Symbolic.pad [k] Handshake.MLKEM768_PK).length = Handshake.MLKEM768_PK :=
      Handshake.Symbolic.length_pad (by decide : 1 ≤ Handshake.MLKEM768_PK)
    show 0 < (Handshake.Symbolic.pad [k] Handshake.MLKEM768_PK).length ∧
      (Handshake.Symbolic.pad [k] Handshake.MLKEM768_PK).length < 2 ^ 16
    rw [hlen]
    decide
  ct_fits {p} (coins : UInt8) {ct ss} h := by
    rintro b ⟨⟩
    have hlen : (Handshake.Symbolic.pad [coins] Handshake.MLKEM768_CT).length = Handshake.MLKEM768_CT :=
      Handshake.Symbolic.length_pad (by decide : 1 ≤ Handshake.MLKEM768_CT)
    cases h
    show 0 < (Handshake.Symbolic.pad [coins] Handshake.MLKEM768_CT).length ∧
      (Handshake.Symbolic.pad [coins] Handshake.MLKEM768_CT).length < 2 ^ 16
    rw [hlen]
    decide
  tag _ _ _ pt := by
    show 16 ≤ (pt ++ List.replicate 16 (0 : UInt8)).length
    rw [List.length_append, List.length_replicate]
    omega

open Handshake.Symbolic (run begin_ answer_ setting)

end Symbolic

end EncedoChat.Eh2
