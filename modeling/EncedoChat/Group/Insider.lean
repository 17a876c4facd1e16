import EncedoChat.Group.Attribution
import EncedoChat.Group.RoundTrip

/-!
# A member does not speak for another

The sessions of the honest members, of any groups and epochs, on one network. All others are the adversary: it has
every chain, and hands any session any frame, chain key and answer of the AEAD that the MACs under keys it does not have,
and the ciphertexts of others, let it make.
-/

namespace EncedoChat.Group

variable {S : Suite} {I : Identities}

/-- A `GroupSession` of an honest member, and every frame that was handed to it. -/
structure Party (S : Suite) (I : Identities) where
  sender : Sender S I
  lanes : OrdMap I.Pub (Lane S I)
  given : List Bytes

namespace Party

def view (P : Party S I) : Session I := P.sender.session

def start (v : Session I) (chain : SendChain S) : Party S I := ⟨.start v chain, .empty, []⟩

def lane (P : Party S I) (p : I.Pub) : Lane S I := (P.lanes.get p).getD (.start P.view p)

def onLane (P : Party S I) (p : I.Pub) (f : Lane S I → Lane S I) : Party S I :=
  { P with lanes := P.lanes.set p (f (P.lane p)) }

end Party

/-- The sessions there have been, each under a number. -/
abbrev World (S : Suite) (I : Identities) := OrdMap Nat (Party S I)

inductive WorldAct (S : Suite) (I : Identities) where
  | create (i : Nat) (v : Session I) (chain : SendChain S)
  | send (i : Nat) (a : SendAct)
  /-- a frame, for the lane of a member: another member's is passed over there -/
  | receive (i : Nat) (p : I.Pub) (id : Nat) (frame : Bytes)
  | setSenderKey (i : Nat) (p : I.Pub) (id : Nat) (chainKey : S.Key) (ctr : Nat) (t : Time)
  | resume (i : Nat) (p : I.Pub) (id : Nat) (opens : Open S) (t : Time)

namespace World

def update (W : World S I) (i : Nat) (f : Party S I → Party S I) : World S I :=
  match W.get i with
  | none => W
  | some P => W.set i (f P)

def act (o : ReceiverOpts) (W : World S I) : WorldAct S I → World S I
  | .create i v chain =>
    match W.get i with
    | none => W.set i (.start v chain)
    | some _ => W
  | .send i a => W.update i fun P => { P with sender := P.sender.act a }
  | .receive i p id frame =>
    W.update i fun P => { P.onLane p fun l => l.receive id frame with given := frame :: P.given }
  | .setSenderKey i p id chainKey ctr t => W.update i fun P => P.onLane p fun l => l.setSenderKey id chainKey ctr t
  | .resume i p id opens t => W.update i fun P => P.onLane p fun l => l.resume o id opens t

/-! ## What the adversary cannot do -/

/-- The session sealed this ciphertext under this header, in a call of `send` with this plaintext. -/
def Sealed (P : Party S I) (header ct pt : Bytes) : Prop :=
  ∃ b ∈ P.sender.log, b.aad = header ∧ b.ct = ct ∧ b.pt = pt

/-- A session that made MACs under this key, and sealed what this one is to be over. -/
def Tagged (W : World S I) (key : I.MacKey) (header ct : Bytes) : Prop :=
  ∃ j Q, W.get j = some Q ∧ (∃ pt, Sealed Q header ct pt) ∧ ∃ m ∈ Q.view.members, m ≠ Q.view.me ∧ key = Q.view.macKeyFor m

/-- A MAC in the frame under a key that the session shares with an honest member was made by one of the two. -/
def Unforged (honest : I.Pub → Prop) (W : World S I) (v : Session I) (frame : Bytes) : Prop :=
  ∀ f, readFrame frame = some f → ∀ r ∈ f.recips, ∀ p, honest p → p ≠ v.me →
    Session.verify (v.macKeyFor p) f.header f.ct r.2 = true → Tagged W (v.macKeyFor p) f.header f.ct

/-- What an honest member sealed opens, if at all, to what it sealed, whatever key is tried. -/
def Opens (W : World S I) (opens : Open S) : Prop :=
  ∀ j Q, W.get j = some Q → ∀ header ct pt, Sealed Q header ct pt →
    ∀ k n pt', opens k n header ct = some pt' → pt' = pt

/-- A session is an honest member's, its epoch as the header has it. -/
def Admitted (honest : I.Pub → Prop) (W : World S I) : WorldAct S I → Prop
  | .create _ v _ => honest v.me ∧ v.epoch < 2 ^ 32
  | .receive i _ _ frame => ∀ P, W.get i = some P → Unforged honest W P.view frame
  | .resume _ _ _ opens _ => W.Opens opens
  | _ => True

end World

/-- The keys of two pairs, groups or epochs differ. -/
def Identities.KeysApart (I : Identities) : Prop :=
  ∀ a b gid epoch a' b' gid' epoch', I.msgMacKeyFor a b gid epoch = I.msgMacKeyFor a' b' gid' epoch' →
    (a = a' ∧ b = b' ∨ a = b' ∧ b = a') ∧ gid = gid' ∧ epoch % 2 ^ 32 = epoch' % 2 ^ 32

/-! ## What a delivery stands for -/

/-- A frame handed to the session had a MAC for us, over this header and ciphertext, under the key we share with `p`. -/
structure Verified (P : Party S I) (p : I.Pub) (header ct : Bytes) : Prop where
  other : p ≠ P.view.me
  member : p ∈ P.view.members
  named : (decodeHeader header).senderId = I.senderIdOf p
  mac : ∃ frame ∈ P.given, ∃ f, readFrame frame = some f ∧ f.header = header ∧ f.ct = ct ∧
    ∃ r ∈ f.recips, r.1 = I.senderIdOf P.view.me ∧ Session.verify (P.view.macKeyFor p) header ct r.2 = true

/-- `p` sent the plaintext of the delivery to the session's owner, in its group and epoch. -/
def SentBy (W : World S I) (v : Session I) (p : I.Pub) (d : Delivery) : Prop :=
  ∃ j Q, W.get j = some Q ∧ Q.view.me = p ∧ Q.view.gid = v.gid ∧ Q.view.epoch = v.epoch ∧ v.me ∈ Q.view.members ∧
    World.Sealed Q d.header d.ct d.pt

theorem verified_of_given {P : Party S I} {p : I.Pub} {header ct : Bytes}
    (h : FromGiven P.view p (· ∈ P.given) header ct) : Verified P p header ct := by
  obtain ⟨frame, hg, ha⟩ := h
  obtain ⟨hne, hm, hid, f, hf, hheader, hct, hr⟩ := Session.accept_some ha
  exact ⟨hne, hm, hid, frame, hg, f, hf, hheader, hct, hr⟩

/-! ## What a session writes -/

/-- The header of a call of `send`. -/
def Sending.header : Sending S → Bytes
  | .keyed header _ _ => header
  | .encrypting header _ _ => header
  | .stepping header _ _ _ => header
  | .tagging header _ _ => header

/-- All headers are the session's own. -/
structure Sender.Wrote (w : Sender S I) : Prop where
  log : ∀ b ∈ w.log, ∃ n, b.aad = encodeHeader (w.session.headerAt n)
  calls : ∀ id c, w.calls.get id = some c → ∃ n, c.header = encodeHeader (w.session.headerAt n)

namespace Sender

variable {w : Sender S I}

theorem Wrote.start (v : Session I) (chain : SendChain S) : (start v chain).Wrote :=
  ⟨fun _ h => (nomatch h), fun _ _ h => (nomatch h)⟩

theorem session_act (a : SendAct) : (w.act a).session = w.session := by
  cases a with
  | send id pt =>
      simp only [act, send]
      split <;> rfl
  | resume id =>
      simp only [act, resume]
      split <;> rfl

theorem log_act (a : SendAct) : ∀ b ∈ w.log, b ∈ (w.act a).log := by
  intro b hb
  cases a with
  | send id pt =>
      simp only [act, send]
      split <;> exact hb
  | resume id =>
      simp only [act, resume]
      split
      · exact hb
      · exact List.mem_append_left _ hb
      · exact hb
      · exact hb
      · exact hb

theorem Wrote.set (h : w.Wrote) {id : Nat} {c : Sending S} {n : Nat}
    (hc : c.header = encodeHeader (w.session.headerAt n)) (id' : Nat) (c' : Sending S)
    (hg : (w.calls.set id c).get id' = some c') : ∃ n, c'.header = encodeHeader (w.session.headerAt n) := by
  obtain ⟨-, rfl⟩ | ⟨-, hg⟩ := OrdMap.get_set_some hg
  · exact ⟨n, hc⟩
  · exact h.calls id' c' hg

theorem Wrote.act (h : w.Wrote) (a : SendAct) : (w.act a).Wrote := by
  cases a with
  | send id pt =>
      simp only [Sender.act, send]
      split
      · exact h
      · exact ⟨h.log, h.set rfl⟩
  | resume id =>
      simp only [Sender.act, resume]
      split
      · exact h
      · rename_i header pt key hg
        obtain ⟨n, hn⟩ := h.calls id _ hg
        refine ⟨?_, h.set hn⟩
        intro b hb
        obtain hb | hb := List.mem_append.mp hb
        · exact h.log b hb
        · rw [List.mem_singleton.mp hb]
          exact ⟨n, hn⟩
      · rename_i hg
        obtain ⟨n, hn⟩ := h.calls id _ hg
        exact ⟨h.log, h.set hn⟩
      · rename_i hg
        obtain ⟨n, hn⟩ := h.calls id _ hg
        exact ⟨h.log, h.set hn⟩
      · exact ⟨h.log, fun id' c' hg => h.calls id' c' (OrdMap.get_delete_some hg).2⟩

end Sender

/-! ## The invariant of a run -/

/-- `W'` is what became of `W`. -/
def World.Later (W W' : World S I) : Prop :=
  ∀ i P, W.get i = some P → ∃ P', W'.get i = some P' ∧ P'.view = P.view ∧ ∀ b ∈ P.sender.log, b ∈ P'.sender.log

structure Party.Ok (honest : I.Pub → Prop) (W : World S I) (P : Party S I) : Prop where
  owner : honest P.view.me
  epoch : P.view.epoch < 2 ^ 32
  wrote : P.sender.Wrote
  given : ∀ frame ∈ P.given, World.Unforged honest W P.view frame
  lanes : ∀ p, (P.lane p).From P.view p (· ∈ P.given)
  verified : ∀ p, ∀ d ∈ (P.lane p).delivered, Verified P p d.header d.ct
  sent : ∀ p, ∀ d ∈ (P.lane p).delivered, honest p → SentBy W P.view p d

def World.Ok (honest : I.Pub → Prop) (W : World S I) : Prop := ∀ i P, W.get i = some P → P.Ok honest W

section Run

variable {honest : I.Pub → Prop} {W W' : World S I} {P : Party S I} {v : Session I} {p : I.Pub}

open World (Later Tagged Unforged Sealed)

theorem World.Sealed.later {P' : Party S I} (h : ∀ b ∈ P.sender.log, b ∈ P'.sender.log) {header ct pt : Bytes}
    (hs : Sealed P header ct pt) : Sealed P' header ct pt := by
  obtain ⟨b, hb, hbox⟩ := hs
  exact ⟨b, h b hb, hbox⟩

theorem World.Tagged.later (h : Later W W') {key : I.MacKey} {header ct : Bytes} (ht : Tagged W key header ct) :
    Tagged W' key header ct := by
  obtain ⟨j, Q, hQ, ⟨pt, hs⟩, m, hm, hne, hkey⟩ := ht
  obtain ⟨Q', hQ', hview, hlog⟩ := h j Q hQ
  refine ⟨j, Q', hQ', ⟨pt, hs.later hlog⟩, m, ?_⟩
  rw [hview]
  exact ⟨hm, hne, hkey⟩

theorem World.Unforged.later (h : Later W W') {frame : Bytes} (hu : Unforged honest W v frame) :
    Unforged honest W' v frame :=
  fun f hf r hr p hp hne hv => (hu f hf r hr p hp hne hv).later h

theorem SentBy.later (h : Later W W') {d : Delivery} (hs : SentBy W v p d) : SentBy W' v p d := by
  obtain ⟨j, Q, hQ, hme, hgid, hepoch, hm, hsealed⟩ := hs
  obtain ⟨Q', hQ', hview, hlog⟩ := h j Q hQ
  refine ⟨j, Q', hQ', ?_⟩
  rw [hview]
  exact ⟨hme, hgid, hepoch, hm, hsealed.later hlog⟩

theorem Party.Ok.later (h : Later W W') (hP : P.Ok honest W) : P.Ok honest W' where
  owner := hP.owner
  epoch := hP.epoch
  wrote := hP.wrote
  given frame hf := (hP.given frame hf).later h
  lanes := hP.lanes
  verified := hP.verified
  sent p d hd hp := (hP.sent p d hd hp).later h

theorem Verified.mono {P' : Party S I} {header ct : Bytes} (h : Verified P p header ct) (hview : P'.view = P.view)
    (hgiven : ∀ frame ∈ P.given, frame ∈ P'.given) : Verified P' p header ct := by
  obtain ⟨hother, hmember, hnamed, frame, hf, hmac⟩ := h
  refine ⟨?_, ?_, hnamed, frame, hgiven frame hf, ?_⟩
  · rwa [hview]
  · rwa [hview]
  · rwa [hview]

/-! ## A new delivery -/

/-- A verified MAC under a key shared with an honest member is over something that this member sent to us. -/
theorem sent_of_verified (hK : I.KeysApart) (hid : ∀ a c, honest a → honest c → I.senderIdOf a = I.senderIdOf c → a = c)
    (hW : W.Ok honest) (hP : P.Ok honest W) {opens : Open S} (ho : W.Opens opens) {d : Delivery} {k : S.Key} {n : S.Nonce}
    (hv : Verified P p d.header d.ct) (hpt : opens k n d.header d.ct = some d.pt) (hp : honest p) :
    SentBy W P.view p d := by
  obtain ⟨frame, hf, f, hread, hheader, hct, r, hr, -, hverify⟩ := hv.mac
  rw [← hheader, ← hct] at hverify
  obtain ⟨j, Q, hQ, ⟨pt, hsealed⟩, m, hm, -, hkey⟩ := hP.given frame hf f hread r hr p hp hv.other hverify
  rw [hheader, hct] at hsealed
  have hQok := hW j Q hQ
  obtain ⟨b, hb, haad, hbct, hbpt⟩ := hsealed
  obtain ⟨n₀, hn₀⟩ := hQok.wrote.log b hb
  obtain ⟨hpair, hgid, hepoch⟩ := hK _ _ _ _ _ _ _ _ hkey
  have hepoch : P.view.epoch = Q.view.epoch := by
    have h₁ := hP.epoch
    have h₂ := hQok.epoch
    omega
  obtain ⟨hme, -⟩ | ⟨hme, hpm⟩ := hpair
  · -- we made it ourselves: its header has our id, and not that of `p`
    have hours : (decodeHeader d.header).senderId = I.senderIdOf P.view.me := by
      rw [← haad, hn₀, decodeHeader_encodeHeader (Session.headerAt_fits ..), hme]
      rfl
    exact absurd (hid _ _ hp hP.owner (hv.named.symm.trans hours)) hv.other
  · refine ⟨j, Q, hQ, hpm.symm, hgid.symm, hepoch.symm, hme ▸ hm, b, hb, haad, hbct, ?_⟩
    have hexact := ho j Q hQ d.header d.ct pt ⟨b, hb, haad, hbct, hbpt⟩ k n d.pt hpt
    rw [hexact, hbpt]

/-! ## Steps -/

theorem Party.lane_onLane (P : Party S I) (p q : I.Pub) (f : Lane S I → Lane S I) :
    (P.onLane p f).lane q = if q = p then f (P.lane p) else P.lane q := by
  rw [lane, onLane, OrdMap.get_set]
  split
  · rfl
  · rfl

theorem Party.Ok.start (chain : SendChain S) (hv : honest v.me) (he : v.epoch < 2 ^ 32) :
    (Party.start v chain).Ok honest W where
  owner := hv
  epoch := he
  wrote := .start v chain
  given _ h := nomatch h
  lanes p := .start v p _
  verified _ _ h := nomatch h
  sent _ _ h := nomatch h

theorem Party.Ok.send (h : P.Ok honest W) (a : SendAct) :
    Party.Ok honest W { P with sender := P.sender.act a } := by
  have hview : Party.view { P with sender := P.sender.act a } = P.view := Sender.session_act a
  have hlane : ∀ p, Party.lane { P with sender := P.sender.act a } p = P.lane p := by
    intro p
    rw [lane, hview]
    rfl
  exact {
    owner := hview ▸ h.owner
    epoch := hview ▸ h.epoch
    wrote := h.wrote.act a
    given := hview ▸ h.given
    lanes := by
      intro p
      rw [hview, hlane]
      exact h.lanes p
    verified := by
      intro p d hd
      rw [hlane] at hd
      exact (h.verified p d hd).mono hview fun _ hf => hf
    sent := by
      intro p d hd hp
      rw [hlane] at hd
      rw [hview]
      exact h.sent p d hd hp }

/-- A lane moves on; what it hands out anew has been verified. -/
theorem Party.Ok.onLane {f : Lane S I → Lane S I} (h : P.Ok honest W) (p : I.Pub) (more : List Bytes)
    (hmore : ∀ frame ∈ more, Unforged honest W P.view frame)
    (hfrom : (f (P.lane p)).From P.view p (· ∈ more ++ P.given))
    (hnew : ∀ d ∈ (f (P.lane p)).delivered, d ∈ (P.lane p).delivered ∨
      Verified P p d.header d.ct ∧ (honest p → SentBy W P.view p d)) :
    Party.Ok honest W { P.onLane p f with given := more ++ P.given } := by
  have hgiven : ∀ frame ∈ P.given, frame ∈ more ++ P.given := fun frame => List.mem_append_right more
  have hlane : ∀ q, Party.lane { P.onLane p f with given := more ++ P.given } q = if q = p then f (P.lane p) else P.lane q :=
    fun q => P.lane_onLane p q f
  exact {
    owner := h.owner
    epoch := h.epoch
    wrote := h.wrote
    given := by
      intro frame hf
      obtain hf | hf := List.mem_append.mp hf
      · exact hmore frame hf
      · exact h.given frame hf
    lanes := by
      intro q
      rw [hlane]
      split
      · rename_i hq
        subst hq
        exact hfrom
      · exact (h.lanes q).mono hgiven
    verified := by
      intro q d hd
      rw [hlane] at hd
      split at hd
      · rename_i hq
        subst hq
        obtain hd | ⟨hv, -⟩ := hnew d hd
        · exact (h.verified q d hd).mono rfl hgiven
        · exact hv.mono rfl hgiven
      · exact (h.verified q d hd).mono rfl hgiven
    sent := by
      intro q d hd hq'
      rw [hlane] at hd
      split at hd
      · rename_i hq
        subst hq
        obtain hd | ⟨-, hs⟩ := hnew d hd
        · exact h.sent q d hd hq'
        · exact hs hq'
      · exact h.sent q d hd hq' }

theorem World.later_update {i : Nat} {f : Party S I → Party S I} (hview : ∀ P, (f P).view = P.view)
    (hlog : ∀ P, ∀ b ∈ P.sender.log, b ∈ (f P).sender.log) : Later W (W.update i f) := by
  intro j Q hQ
  unfold update
  cases hi : W.get i with
  | none => exact ⟨Q, hQ, rfl, fun b hb => hb⟩
  | some P =>
      dsimp only
      by_cases hj : j = i
      · subst hj
        obtain rfl := Option.some.inj (hi.symm.trans hQ)
        exact ⟨f P, OrdMap.get_set_self .., hview P, hlog P⟩
      · exact ⟨Q, by rw [OrdMap.get_set_ne _ _ hj, hQ], rfl, fun b hb => hb⟩

theorem World.Ok.update {i : Nat} {f : Party S I → Party S I} (hW : W.Ok honest) (hview : ∀ P, (f P).view = P.view)
    (hlog : ∀ P, ∀ b ∈ P.sender.log, b ∈ (f P).sender.log)
    (hstep : ∀ P, W.get i = some P → P.Ok honest W → (f P).Ok honest W) : (W.update i f).Ok honest := by
  have hlater : Later W (W.update i f) := later_update hview hlog
  intro j Q hQ
  refine Party.Ok.later hlater ?_
  unfold World.update at hQ
  cases hi : W.get i with
  | none =>
      rw [hi] at hQ
      exact hW j Q hQ
  | some P =>
      rw [hi] at hQ
      obtain ⟨rfl, rfl⟩ | ⟨-, hQ⟩ := OrdMap.get_set_some hQ
      · exact hstep P hi (hW _ P hi)
      · exact hW j Q hQ

theorem World.Ok.act (hK : I.KeysApart)
    (hid : ∀ a c, honest a → honest c → I.senderIdOf a = I.senderIdOf c → a = c) (o : ReceiverOpts) (hW : W.Ok honest)
    {a : WorldAct S I} (ha : W.Admitted honest a) : (W.act o a).Ok honest := by
  cases a with
  | create i v chain =>
      rw [World.act]
      cases hi : W.get i with
      | some P => exact hW
      | none =>
          have hlater : Later W (W.set i (.start v chain)) := by
            intro j Q hQ
            refine ⟨Q, ?_, rfl, fun b hb => hb⟩
            rw [OrdMap.get_set_ne _ _ (by rintro rfl; rw [hi] at hQ; cases hQ), hQ]
          intro j Q hQ
          obtain ⟨rfl, rfl⟩ | ⟨-, hQ⟩ := OrdMap.get_set_some hQ
          · exact .start chain ha.1 ha.2
          · exact (hW j Q hQ).later hlater
  | send i a =>
      refine hW.update (fun P => Sender.session_act a) (fun P => Sender.log_act a) ?_
      intro P hi hP
      exact hP.send a
  | receive i p id frame =>
      refine hW.update (fun P => rfl) (fun P b hb => hb) ?_
      intro P hi hP
      have hmore : ∀ fr ∈ [frame], Unforged honest W P.view fr := by
        intro fr hfr
        rw [List.mem_singleton.mp hfr]
        exact ha P hi
      refine hP.onLane p [frame] hmore ?_ ?_
      · exact ((hP.lanes p).mono fun fr hfr => List.mem_append_right [frame] hfr).receive (List.mem_cons_self ..)
      · intro d hd
        left
        rw [Lane.receive] at hd
        split at hd <;> exact hd
  | setSenderKey i p id chainKey ctr t =>
      refine hW.update (fun P => rfl) (fun P b hb => hb) ?_
      intro P hi hP
      refine hP.onLane (f := fun l => l.setSenderKey id chainKey ctr t) p [] (fun _ h => nomatch h) ?_ ?_
      · exact (hP.lanes p).setSenderKey chainKey ctr
      · intro d hd
        rw [Lane.delivered_setSenderKey] at hd
        exact Or.inl hd
  | resume i p id opens t =>
      refine hW.update (fun P => rfl) (fun P b hb => hb) ?_
      intro P hi hP
      refine hP.onLane (f := fun l => l.resume o id opens t) p [] (fun _ h => nomatch h) ?_ ?_
      · exact (hP.lanes p).resume o opens
      · intro d hd
        obtain hd | ⟨hg, k, n, hpt⟩ := Lane.delivered_resume (hP.lanes p) hd
        · exact Or.inl hd
        · have hv := verified_of_given hg
          exact Or.inr ⟨hv, sent_of_verified hK hid hW hP ha hv hpt⟩

end Run

/-! ## A copy under the sender's chain -/

namespace Symbolic

/-- Member `me` of a group of three. -/
def third (me : UInt8) : Session identities := { pair with me, members := [(1 : UInt8), (2 : UInt8), (3 : UInt8)] }

/-- Members 1 and 2 are honest. -/
def trusted (p : UInt8) : Prop := p = 1 ∨ p = 2

/-- Member 1 sends; member 3, who has the chain, seals a text of its own and puts the MACs of the frame beside it. -/
def sentFrame : Frame :=
  let s := (third 1).sealNext (newSendChain seed) [10]
  (third 1).frameFor s.aad s.ct
def resealed : Frame := { sentFrame with ct := (aeadBox (suite.chain.keyAt seed 0) 0 sentFrame.header [66]).ct }

def opensAny : Open suite := fun _ _ _ ct => some (ct.take 1)

def insiderRun : List (WorldAct suite identities) :=
  [.create 0 (third 1) (newSendChain seed), .send 0 (.send 0 [10]), .send 0 (.resume 0), .create 1 (third 2) (newSendChain seed),
    .setSenderKey 1 (1 : UInt8) 0 seed 0 0, .receive 1 (1 : UInt8) 0 (encodeFrame resealed), .resume 1 (1 : UInt8) 0 opensAny 0,
    .receive 1 (1 : UInt8) 0 (encodeFrame sentFrame), .resume 1 (1 : UInt8) 0 opensAny 0, .resume 1 (1 : UInt8) 0 opensAny 0]

theorem sorted_eq {a b a' b' : UInt8} (h : (if a ≤ b then [a, b] else [b, a]) = if a' ≤ b' then [a', b'] else [b', a']) :
    a = a' ∧ b = b' ∨ a = b' ∧ b = a' := by
  split at h <;> split at h <;> cases h <;> simp

theorem keysApart : identities.KeysApart := by
  intro (a : UInt8) (b : UInt8) gid epoch (a' : UInt8) (b' : UInt8) gid' epoch' h
  have hlen : (if a ≤ b then [a, b] else [b, a]).length = (if a' ≤ b' then [a', b'] else [b', a']).length := by
    split <;> split <;> rfl
  obtain ⟨hpair, hctx⟩ := List.append_inj (h : (if a ≤ b then [a, b] else [b, a]) ++ (gid ++ Bytes.u32be epoch) =
    (if a' ≤ b' then [a', b'] else [b', a']) ++ (gid' ++ Bytes.u32be epoch')) hlen
  obtain ⟨hgid, hepoch⟩ := List.append_inj' hctx (by rw [Bytes.length_u32be, Bytes.length_u32be])
  exact ⟨sorted_eq hpair, hgid, Bytes.u32be_inj hepoch⟩

theorem trusted_ids (a c : UInt8) (_ : trusted a) (_ : trusted c) (h : identities.senderIdOf a = identities.senderIdOf c) :
    a = c := (List.cons.inj h).1

/-- The first `n` steps of the run. -/
def insiderAt (n : Nat) : World suite identities := (insiderRun.take n).foldl (World.act {}) .empty

theorem view_insiderAt {n : Nat} {P : Party suite identities}
    (hn : ((insiderAt n).get 1).map Party.view = some (third 2)) (hP : (insiderAt n).get 1 = some P) : P.view = third 2 := by
  rw [hP] at hn
  exact Option.some.inj hn

/-- The one plaintext that is sealed is what opens. -/
theorem opens_insiderAt {n : Nat}
    (hn : ((insiderAt n).entries.all fun e => e.2.sender.log.all fun b => decide (b.ct.take 1 = b.pt)) = true) :
    (insiderAt n).Opens opensAny := by
  rintro j Q hQ header ct pt ⟨b, hb, -, rfl, rfl⟩ k m pt' hpt
  have hall := List.all_eq_true.mp (List.all_eq_true.mp hn (j, Q) (OrdMap.get_eq_some.mp hQ)) b hb
  exact (Option.some.inj hpt).symm.trans (of_decide_eq_true hall)

/-- Member 2 shares a key with one honest member only. -/
theorem unforged_insiderAt {n : Nat} {frame : Bytes} {f : Frame} (hf : readFrame frame = some f)
    (h : (∀ r ∈ f.recips, Session.verify ((third 2).macKeyFor (1 : UInt8)) f.header f.ct r.2 = false) ∨
      (insiderAt n).Tagged ((third 2).macKeyFor (1 : UInt8)) f.header f.ct) :
    (insiderAt n).Unforged trusted (third 2) frame := by
  intro f' hf' r hr p hp hne hv
  obtain rfl := Option.some.inj (hf.symm.trans hf')
  obtain rfl | rfl := hp
  · obtain hfalse | htagged := h
    · rw [hfalse r hr] at hv
      cases hv
    · exact htagged
  · exact absurd rfl hne

instance : DecidableEq identities.MacKey := inferInstanceAs (DecidableEq Bytes)

theorem tagged_insiderAt : (insiderAt 7).Tagged ((third 2).macKeyFor (1 : UInt8)) sentFrame.header sentFrame.ct := by
  have h : ((insiderAt 7).get 0).any (fun Q => Q.sender.log.any (fun b => decide (b.aad = sentFrame.header ∧ b.ct = sentFrame.ct)) &&
      decide (Q.view.macKeyFor (2 : UInt8) = (third 2).macKeyFor (1 : UInt8)) &&
      decide (2 ∈ (Q.view.members : List UInt8)) && decide (2 ≠ (Q.view.me : UInt8))) = true := by decide
  obtain ⟨Q, hQ, h⟩ := (Option.any_eq_true _ _).mp h
  simp only [Bool.and_eq_true, decide_eq_true_eq] at h
  obtain ⟨⟨⟨hlog, hkey⟩, hm⟩, hne⟩ := h
  obtain ⟨b, hb, hbox⟩ := List.any_eq_true.mp hlog
  obtain ⟨haad, hct⟩ := of_decide_eq_true hbox
  exact ⟨0, Q, hQ, ⟨b.pt, b, hb, haad, hct, rfl⟩, (2 : UInt8), hm, hne, hkey.symm⟩

theorem admits_insiderRun : Admits (World.act {}) (World.Admitted trusted) (.empty : World suite identities) insiderRun := by
  have hresealed : readFrame (encodeFrame resealed) = some resealed := by decide +kernel
  have hsent : readFrame (encodeFrame sentFrame) = some sentFrame := by decide +kernel
  refine ⟨⟨Or.inl rfl, by decide⟩, trivial, trivial, ⟨Or.inr rfl, by decide⟩, trivial, ?_, ?_, ?_, ?_, ?_, trivial⟩
  · intro P hP
    rw [view_insiderAt (n := 5) rfl hP]
    exact unforged_insiderAt (n := 5) hresealed (Or.inl (by decide))
  · exact opens_insiderAt (n := 6) (by decide)
  · intro P hP
    rw [view_insiderAt (n := 7) rfl hP]
    exact unforged_insiderAt (n := 7) hsent (Or.inr tagged_insiderAt)
  · exact opens_insiderAt (n := 8) (by decide)
  · exact opens_insiderAt (n := 9) (by decide)

end Symbolic

end EncedoChat.Group
