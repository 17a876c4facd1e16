import Mathlib.Logic.Function.Basic
import EncedoChat.Lib.Run
import EncedoChat.Handshake.Agreement
import EncedoChat.Room.Pair
import EncedoChat.Room.Seam

/-!
# Handshakes converge safely

Two rooms of a pair, each fed whatever the topic delivers: what an abandoned attempt comes to, how many attempts a peer
has, and what two sessions of one transcript share.
-/

namespace EncedoChat.Room

open EncedoChat.Handshake (Suite Fresh Engine Feed Refusal Owner Paired)

variable {C : Suite}

namespace Attempts

/-! ## What holds of the attempts of a room -/

def Stages (K : Owner C.toPrimitives) : Stage C → Prop
  | .starting _ tagKey _ => K.tagKey tagKey
  | .ready e => e.Sound ∧ K.Starts e.opts
  | .nothing => True

/-- What a feed copied is what its engine still has. -/
def Fits (t : Attempts C) : Task C → Prop
  | .feeding i _ f => ∃ (a : Attempt C) (e : Engine C), t.made[i]? = some a ∧ a.h = some e ∧ e.Fits f
  | _ => True

/-- The handshake of a peer is the attempt of its that is not cancelled. -/
structure Keyed (t : Attempts C) : Prop where
  held : ∀ p i, t.handshakes.get p = some i → ∃ a : Attempt C, t.made[i]? = some a ∧ a.cancelled = false ∧ a.peer = p
  live : ∀ (i : Nat) (a : Attempt C), t.made[i]? = some a → a.cancelled = false → t.handshakes.get a.peer = some i

structure Honest (K : Owner C.toPrimitives) (t : Attempts C) : Prop where
  ik : t.ik = K.ik
  peerIkPub : t.peerIkPub = K.peerIkPub
  macKey : K.tagKey (initiatorTagKey C t.macKey)
  stages : ∀ (i : Nat) (a : Attempt C), t.made[i]? = some a → Stages K a.stage
  tasks : ∀ x, some x ∈ t.tasks → t.Fits x
  installs : ∀ x ∈ t.installs, ∃ o, K.Starts o ∧ Engine.Comes o x.session

structure Inv (K : Owner C.toPrimitives) (t : Attempts C) : Prop extends Keyed t, Honest K t

def Gone (t : Attempts C) (i : Nat) : Prop := ∃ a : Attempt C, t.made[i]? = some a ∧ a.cancelled = true

def installsOf (t : Attempts C) (i : Nat) : List (Install C) := t.installs.filter fun x => x.attempt = i

/-- A cancelled attempt stays cancelled, and installs nothing. -/
structure Later (t t' : Attempts C) : Prop where
  gone : ∀ i, t.Gone i → t'.Gone i
  installs : ∀ i, t.Gone i → t'.installsOf i = t.installsOf i

/-- What a turn comes to is what the table is led through. -/
def Leads (K : Owner C.toPrimitives) (t t' : Attempts C) : Prop := t.Inv K → t'.Inv K ∧ Later t t'

variable {K : Owner C.toPrimitives} {t t' t'' : Attempts C}

theorem Leads.refl (t : Attempts C) : Leads K t t := fun h => ⟨h, fun _ => id, fun _ _ => rfl⟩

theorem Leads.trans (h : Leads K t t') (h' : Leads K t' t'') : Leads K t t'' := by
  intro hi
  obtain ⟨hi', hl⟩ := h hi
  obtain ⟨hi'', hl'⟩ := h' hi'
  refine ⟨hi'', fun i hg => hl'.gone i (hl.gone i hg), ?_⟩
  intro i hg
  rw [hl'.installs i (hl.gone i hg), hl.installs i hg]

/-! ## One attempt changes -/

/-- Its peer and its engine may change, if the engine steps. -/
structure Steps (K : Owner C.toPrimitives) (a a' : Attempt C) : Prop where
  cancelled : a.cancelled = true → a'.cancelled = true
  engine : ∀ e, a.h = some e → ∃ e', a'.h = some e' ∧ Engine.Grows e e'
  stage : Stages K a'.stage

theorem made_update (i j : Nat) (f : Attempt C → Attempt C) :
    (t.update i f).made[j]? = if i = j then (t.made[j]?).map f else t.made[j]? := by
  rw [update, List.getElem?_modify]
  split <;> simp

/-- The attempts after a change of one of them. -/
theorem made_of_update {i j : Nat} {f : Attempt C → Attempt C} {a' : Attempt C}
    (h : (t.update i f).made[j]? = some a') : ∃ a, t.made[j]? = some a ∧ a' = if i = j then f a else a := by
  rw [made_update] at h
  split at h
  · rename_i hij
    obtain ⟨a, ha, rfl⟩ := Option.map_eq_some_iff.mp h
    exact ⟨a, ha, (if_pos hij).symm⟩
  · rename_i hij
    exact ⟨a', h, (if_neg hij).symm⟩

theorem made_to_update {i j : Nat} {f : Attempt C → Attempt C} {a : Attempt C} (h : t.made[j]? = some a) :
    (t.update i f).made[j]? = some (if i = j then f a else a) := by
  rw [made_update, h]
  split <;> rfl

theorem Gone.update {i j : Nat} {f : Attempt C → Attempt C} (hf : ∀ a, a.cancelled = true → (f a).cancelled = true)
    (h : t.Gone j) : (t.update i f).Gone j := by
  obtain ⟨a, ha, hc⟩ := h
  refine ⟨_, made_to_update ha, ?_⟩
  split
  · exact hf a hc
  · exact hc

/-- A task fits as long as the engines only step. -/
theorem Fits.mono (hm : ∀ (i : Nat) (a : Attempt C), t.made[i]? = some a → ∃ a' : Attempt C, t'.made[i]? = some a' ∧
    ∀ e, a.h = some e → ∃ e', a'.h = some e' ∧ Engine.Grows e e') {x : Task C} (h : t.Fits x) : t'.Fits x := by
  cases x with
  | begun i from_ frame => trivial
  | feeding i from_ f =>
      obtain ⟨a, e, ha, he, hf⟩ := h
      obtain ⟨a', ha', hg⟩ := hm i a ha
      obtain ⟨e', he', hge⟩ := hg e he
      exact ⟨a', e', ha', he', hf.mono hge⟩
  | fed i from_ out => trivial

theorem Honest.update (h : t.Honest K) {i : Nat} {f : Attempt C → Attempt C}
    (hf : ∀ a : Attempt C, t.made[i]? = some a → Steps K a (f a)) : (t.update i f).Honest K where
  ik := h.ik
  peerIkPub := h.peerIkPub
  macKey := h.macKey
  stages j a' ha' := by
    obtain ⟨a, ha, rfl⟩ := made_of_update ha'
    split
    · rename_i hij
      subst hij
      exact (hf a ha).stage
    · exact h.stages j a ha
  tasks x hx := by
    refine (h.tasks x hx).mono fun j a ha => ⟨_, made_to_update ha, ?_⟩
    split
    · rename_i hij
      subst hij
      exact (hf a ha).engine
    · exact fun e he => ⟨e, he, .refl e⟩
  installs := h.installs

theorem Keyed.update (h : t.Keyed) {i : Nat} {f : Attempt C → Attempt C}
    (hf : ∀ a, (f a).peer = a.peer ∧ (f a).cancelled = a.cancelled) : (t.update i f).Keyed where
  held p j hj := by
    obtain ⟨a, ha, hc, hp⟩ := h.held p j hj
    refine ⟨_, made_to_update ha, ?_⟩
    split
    · exact ⟨(hf a).2.trans hc, (hf a).1.trans hp⟩
    · exact ⟨hc, hp⟩
  live j a' ha' hc := by
    obtain ⟨a, ha, rfl⟩ := made_of_update ha'
    split at hc
    · rename_i hij
      rw [if_pos hij, (hf a).1]
      exact h.live j a ha ((hf a).2.symm.trans hc)
    · rename_i hij
      rw [if_neg hij]
      exact h.live j a ha hc

/-- An attempt keeps its peer, and is not cancelled. -/
theorem Leads.update {i : Nat} {f : Attempt C → Attempt C}
    (hf : ∀ a, (f a).peer = a.peer ∧ (f a).cancelled = a.cancelled)
    (hs : t.Inv K → ∀ a : Attempt C, t.made[i]? = some a → Steps K a (f a)) : Leads K t (t.update i f) := by
  intro h
  exact ⟨⟨h.toKeyed.update hf, h.toHonest.update (hs h)⟩, fun j hj => hj.update fun a hc => (hf a).2.trans hc,
    fun _ _ => rfl⟩

/-- An attempt keeps its stage. -/
theorem Steps.same (h : t.Inv K) {i : Nat} {a a' : Attempt C} (ha : t.made[i]? = some a)
    (hc : a.cancelled = true → a'.cancelled = true) (hs : a'.stage = a.stage) : Steps K a a' where
  cancelled := hc
  engine e he := by
    refine ⟨e, ?_, .refl e⟩
    rw [← he, Attempt.h, Attempt.h, hs]
  stage := hs ▸ h.stages i a ha

/-! ## The operations -/

theorem Keyed.clear (h : t.Keyed) (peer : PeerId) : (t.clear peer).Keyed := by
  rw [Attempts.clear]
  cases hg : t.handshakes.get peer with
  | none =>
      have hget : ∀ p, (t.handshakes.delete peer).get p = t.handshakes.get p := by
        intro p
        rw [OrdMap.get_delete]
        split
        · rename_i hp
          rw [hp, hg]
        · rfl
      refine ⟨fun p j hj => h.held p j ((hget p).symm.trans hj), fun j a ha hc => ?_⟩
      exact (hget a.peer).trans (h.live j a ha hc)
  | some i =>
      obtain ⟨b, hb, -, hbp⟩ := h.held peer i hg
      constructor
      · intro p j hj
        obtain ⟨hp, hj⟩ := OrdMap.get_delete_some hj
        obtain ⟨a, ha, hc, hap⟩ := h.held p j hj
        have hij : i ≠ j := by
          rintro rfl
          rw [hb] at ha
          cases ha
          exact hp (hap.symm.trans hbp)
        exact ⟨a, by rw [Option.elim_some, made_update, if_neg hij, ha], hc, hap⟩
      · intro j a' ha' hc
        obtain ⟨a, ha, rfl⟩ := made_of_update ha'
        split at hc
        · cases hc
        · rename_i hij
          rw [if_neg hij]
          have hlive := h.live j a ha hc
          refine (OrdMap.get_delete_ne _ fun hp => ?_).trans hlive
          rw [hp, hg] at hlive
          exact hij (Option.some.inj hlive)

theorem Leads.clear (t : Attempts C) (peer : PeerId) : Leads K t (t.clear peer) := by
  intro h
  refine ⟨⟨h.toKeyed.clear peer, ?_⟩, ?_⟩
  · rw [Attempts.clear]
    cases t.handshakes.get peer with
    | none => exact ⟨h.ik, h.peerIkPub, h.macKey, h.stages, h.tasks, h.installs⟩
    | some i =>
        have hu : (t.update i fun a => { a with cancelled := true }).Honest K :=
          h.toHonest.update fun a ha => .same h ha (fun _ => rfl) rfl
        exact ⟨hu.ik, hu.peerIkPub, hu.macKey, hu.stages, hu.tasks, hu.installs⟩
  · rw [Attempts.clear]
    cases t.handshakes.get peer with
    | none => exact ⟨fun _ => id, fun _ _ => rfl⟩
    | some i => exact ⟨fun j hj => hj.update fun _ _ => rfl, fun _ _ => rfl⟩

@[simp] theorem get_clear (t : Attempts C) (peer : PeerId) : (t.clear peer).handshakes.get peer = none := by
  simp [Attempts.clear]

theorem Leads.begin {peer : PeerId} {role : Handshake.Role} {msg1 : Option Bytes} {rekey : Bool} {now : Time}
    (hfree : t.handshakes.get peer = none) : Leads K t (t.begin_ peer role msg1 rekey now) := by
  intro h
  have hold : ∀ {i : Nat} {a : Attempt C} {x : List (Attempt C)}, t.made[i]? = some a → (t.made ++ x)[i]? = some a := fun {i a x} ha => by
    rw [List.getElem?_append_left (List.getElem?_eq_some_iff.mp ha).1, ha]
  have hnew : ∀ {i : Nat} {a x : Attempt C}, (t.made ++ [x])[i]? = some a →
      t.made[i]? = some a ∨ (i = t.made.length ∧ a = x) := by
    intro i a x ha
    obtain hlt | heq | hgt := lt_trichotomy i t.made.length
    · rw [List.getElem?_append_left hlt] at ha
      exact Or.inl ha
    · rw [heq, List.getElem?_concat_length] at ha
      exact Or.inr ⟨heq, (Option.some.inj ha).symm⟩
    · rw [List.getElem?_eq_none (by rw [List.length_append, List.length_singleton]; exact hgt)] at ha
      cases ha
  refine ⟨⟨⟨?_, ?_⟩, ⟨h.ik, h.peerIkPub, h.macKey, ?_, ?_, h.installs⟩⟩, ?_, fun _ _ => rfl⟩
  · intro p i hi
    obtain ⟨rfl, rfl⟩ | ⟨-, hi⟩ := OrdMap.get_set_some hi
    · exact ⟨_, List.getElem?_concat_length, rfl, rfl⟩
    · obtain ⟨a, ha, hc⟩ := h.held p i hi
      exact ⟨a, hold ha, hc⟩
  · intro i a ha hc
    obtain ha | ⟨rfl, rfl⟩ := hnew ha
    · have hlive := h.live i a ha hc
      refine (OrdMap.get_set_ne _ _ fun hp => ?_).trans hlive
      rw [hp, hfree] at hlive
      cases hlive
    · exact OrdMap.get_set_self ..
  · intro i a ha
    obtain ha | ⟨-, rfl⟩ := hnew ha
    · exact h.stages i a ha
    · exact h.macKey
  · intro x hx
    exact (h.tasks x hx).mono fun i a ha => ⟨a, hold ha, fun e he => ⟨e, he, .refl e⟩⟩
  · intro i hg
    obtain ⟨a, ha, hc⟩ := hg
    exact ⟨a, hold ha, hc⟩

/-- The attempt of a peer is keyed by another, which has none. -/
theorem Leads.move {i : Nat} {old from_ : PeerId} (hold : t.handshakes.get old = some i)
    (hfree : t.handshakes.get from_ = none) : Leads K t (t.move i old from_) := by
  intro h
  have hu : (t.update i fun a => { a with peer := from_ }).Honest K :=
    h.toHonest.update fun a ha => .same h ha id rfl
  obtain ⟨b, hb, hbc, hbp⟩ := h.held old i hold
  refine ⟨⟨⟨?_, ?_⟩, ⟨hu.ik, hu.peerIkPub, hu.macKey, hu.stages, hu.tasks, hu.installs⟩⟩, fun j hj => hj.update fun _ => id, fun _ _ => rfl⟩
  · intro p j hj
    obtain ⟨rfl, rfl⟩ | ⟨-, hj⟩ := OrdMap.get_set_some hj
    · exact ⟨_, (made_to_update hb).trans (congrArg some (if_pos rfl)), hbc, rfl⟩
    · obtain ⟨hp, hj⟩ := OrdMap.get_delete_some hj
      obtain ⟨a, ha, hc, hap⟩ := h.held p j hj
      refine ⟨a, (made_to_update ha).trans (congrArg some (if_neg ?_)), hc, hap⟩
      rintro rfl
      rw [hb] at ha
      cases ha
      exact hp (hap.symm.trans hbp)
  · intro j a' ha' hc
    obtain ⟨a, ha, rfl⟩ := made_of_update ha'
    by_cases hij : i = j
    · subst hij
      rw [if_pos rfl]
      exact OrdMap.get_set_self ..
    · rw [if_neg hij] at hc ⊢
      have hlive := h.live j a ha hc
      refine (OrdMap.get_set_ne _ _ fun hp => ?_).trans ((OrdMap.get_delete_ne _ fun hp => ?_).trans hlive)
      · rw [hp, hfree] at hlive
        cases hlive
      · rw [hp, hold] at hlive
        exact hij (Option.some.inj hlive)

/-- An attempt gets another stage, of which its engine has grown. -/
theorem Leads.setStage {i : Nat} {s : Stage C}
    (hs : t.Inv K → ∀ a : Attempt C, t.made[i]? = some a → Steps K a { a with stage := s }) :
    Leads K t (t.setStage i s) := .update (fun _ => ⟨rfl, rfl⟩) hs

theorem Leads.push {task : Task C} (hf : t.Fits task) : Leads K t (t.push task) := by
  intro h
  refine ⟨⟨⟨h.held, h.live⟩, ⟨h.ik, h.peerIkPub, h.macKey, h.stages, ?_, h.installs⟩⟩, fun _ => id, fun _ _ => rfl⟩
  intro x hx
  obtain hx | hx := List.mem_append.mp hx
  · exact h.tasks x hx
  · cases List.mem_singleton.mp hx
    exact hf

/-- A task is taken up. -/
theorem Leads.take (t : Attempts C) (k : Nat) : Leads K t { t with tasks := t.tasks.set k none } := by
  intro h
  refine ⟨⟨⟨h.held, h.live⟩, ⟨h.ik, h.peerIkPub, h.macKey, h.stages, ?_, h.installs⟩⟩, fun _ => id, fun _ _ => rfl⟩
  intro x hx
  obtain hx | hx := List.mem_or_eq_of_mem_set hx
  · exact h.tasks x hx
  · cases hx

theorem h_some {a : Attempt C} {e : Engine C} (h : a.h = some e) : a.stage = .ready e := by
  obtain ⟨stage, _⟩ := a
  cases stage with
  | ready x =>
      cases h
      rfl
  | starting _ _ _ => cases h
  | nothing => cases h

theorem Honest.ready (h : t.Honest K) {i : Nat} {a : Attempt C} {e : Engine C} (ha : t.made[i]? = some a)
    (he : a.h = some e) : e.Sound ∧ K.Starts e.opts := by
  have hstage := h.stages i a ha
  rw [h_some he] at hstage
  exact hstage

theorem Leads.stepped {i : Nat} {from_ : PeerId} {a : Attempt C} {e : Engine C}
    {r : Engine C × (Feed C ⊕ Except Refusal (Option Bytes))} (ha : t.made[i]? = some a) (he : a.h = some e)
    (hk : t.Inv K → Engine.Keeps e r) : Leads K t (t.stepped i from_ r) := by
  intro h
  have hk := hk h
  have hset : Leads K t (t.setStage i (.ready r.1)) := by
    apply Leads.setStage
    intro _ a' ha'
    rw [ha] at ha'
    cases ha'
    refine ⟨id, fun x hx => ?_, hk.sound, ?_⟩
    · rw [he] at hx
      cases hx
      exact ⟨r.1, rfl, hk.grows⟩
    · rw [hk.grows.opts]
      exact (h.ready ha he).2
  refine (hset.trans (.push ?_)) h
  cases hr : r.2 with
  | inr out => trivial
  | inl f => exact ⟨_, r.1, (made_to_update ha).trans (congrArg some (if_pos rfl)), rfl, hk.fits f hr⟩

theorem Leads.feed (t : Attempts C) (i : Nat) (data : Bytes) (from_ : PeerId) (now : Time) :
    Leads K t (t.feed i data from_ now) := by
  rw [Attempts.feed]
  split
  · exact .refl t
  · rename_i e he
    obtain ⟨a, ha, he⟩ := Option.bind_eq_some_iff.mp he
    exact .stepped ha he fun h => (h.ready ha he).1.feed

/-- The attempt that its peer's handshake is installs the session of its promise. -/
theorem Leads.install {i : Nat} {p : PeerId} {a : Attempt C} {e : Engine C} {s : Handshake.Session C}
    (hp : t.handshakes.get p = some i) (ha : t.made[i]? = some a) (he : a.h = some e)
    (hs : e.session = some (.ok s)) : Leads K t (t.install i p s) := by
  intro h
  obtain ⟨hc, hl⟩ := Leads.clear (K := K) t p h
  obtain ⟨hsound, hstarts⟩ := h.ready ha he
  refine ⟨⟨⟨hc.held, hc.live⟩, hc.ik, hc.peerIkPub, hc.macKey, hc.stages, hc.tasks, ?_⟩, hl.gone, ?_⟩
  · intro x hx
    obtain rfl | hx := List.mem_cons.mp hx
    · exact ⟨e.opts, hstarts, hsound.session s hs⟩
    · exact h.installs x hx
  · intro j hj
    have hij : i ≠ j := by
      rintro rfl
      obtain ⟨b, hb, hbc⟩ := hj
      obtain ⟨b', hb', hbc', -⟩ := h.held p i hp
      rw [hb] at hb'
      cases hb'
      rw [hbc] at hbc'
      cases hbc'
    exact List.filter_cons_of_neg (by simpa using hij)

end Attempts

namespace Seam

open Attempts (Stages)

/-! ## What a turn does to the attempts -/

/-- The attempts of one room are led to those of the other. -/
def Leads (K : Owner C.toPrimitives) (r r' : Seam C) : Prop := Attempts.Leads K r.toAttempts r'.toAttempts

variable {K : Owner C.toPrimitives} {S : Settings} {r r' r'' : Seam C}

theorem Leads.refl (r : Seam C) : Leads K r r := Attempts.Leads.refl _

theorem Leads.trans (h : Leads K r r') (h' : Leads K r' r'') : Leads K r r'' := Attempts.Leads.trans h h'

theorem Leads.foldl {α : Type} {f : Seam C → α → Seam C} (hf : ∀ r x, Leads K r (f r x)) (l : List α) (r : Seam C) :
    Leads K r (l.foldl f r) := by
  induction l generalizing r with
  | nil => exact .refl _
  | cons x l ih => exact (hf r x).trans (ih (f r x))

theorem Leads.clearAttempt (r : Seam C) (peer : PeerId) : Leads K r (r.clearAttempt peer) := .clear _ peer

theorem Leads.retire (r : Seam C) (old : PeerId) : Leads K r (r.retire old) := .clear _ old

theorem Leads.retireOtherPeers (r : Seam C) (keep : PeerId) (now : Time) :
    Leads K r (r.retireOtherPeers S keep now) := .foldl .retire _ r

theorem Leads.beginHandshake (r : Seam C) (peer : PeerId) (role : Handshake.Role) (msg1 : Option Bytes) (now : Time) :
    Leads K r (r.beginHandshake peer role msg1 now) :=
  (Attempts.Leads.clear r.toAttempts peer).trans (.begin (Attempts.get_clear r.toAttempts peer))

theorem Leads.maybeHandshake (r : Seam C) (peer : PeerId) (now : Time) : Leads K r (r.maybeHandshake peer now) := by
  unfold Seam.maybeHandshake
  split
  · exact .refl _
  · split
    · exact .refl _
    · exact .beginHandshake _ _ _ _ _

@[simp] theorem giveUp_toAttempts (r : Seam C) (peer : PeerId) (failed : Attempt C) (now jitter : Time) :
    (r.giveUp peer failed now jitter).toAttempts = r.toAttempts := by
  unfold giveUp
  dsimp only
  split
  · split
    · rfl
    · split <;> rfl
  · split <;> rfl

/-- An attempt failed. -/
theorem Leads.failed (r : Seam C) (peer : PeerId) (a : Attempt C) (now jitter : Time) :
    Leads K r ((r.clearAttempt peer).giveUp peer a now jitter) := by
  rw [Leads, giveUp_toAttempts]
  exact .clear _ peer

theorem Leads.notOurContact (r : Seam C) (peer : PeerId) (now : Time) : Leads K r (r.notOurContact peer now) := by
  unfold Seam.notOurContact
  split
  · exact .refl _
  · exact .clear _ peer

/-- An attempt without a handshake never has one. -/
theorem Leads.nothing {i : Nat} {a : Attempt C} (ha : r.made[i]? = some a) (hn : a.h = none) :
    Leads K r { r with toAttempts := r.setStage i .nothing } := by
  refine Attempts.Leads.setStage fun _ a' ha' => ⟨id, fun e he => ?_, trivial⟩
  rw [ha] at ha'
  cases ha'
  rw [hn] at he
  cases he

theorem opened_toAttempts (r : Seam C) (i : Nat) (peer : PeerId) (h : Engine C) :
    (r.opened i peer h).toAttempts = r.setStage i (.ready h) := by
  unfold opened
  dsimp only
  split <;> rfl

/-- An attempt has its handshake. -/
theorem Leads.opened {i : Nat} {peer : PeerId} {a : Attempt C} {e : Engine C} (ha : r.made[i]? = some a)
    (hn : a.h = none) (hs : Attempts.Inv K r.toAttempts → Stages K (.ready e)) : Leads K r (r.opened i peer e) := by
  rw [Leads, opened_toAttempts]
  refine Attempts.Leads.setStage fun h a' ha' => ⟨id, fun e he => ?_, hs h⟩
  rw [ha] at ha'
  cases ha'
  rw [hn] at he
  cases he

theorem Leads.started (r : Seam C) (i : Nat) (d : Fresh C) (now : Time) : Leads K r (r.started i d now) := by
  unfold Seam.started
  cases ha : r.made[i]? with
  | none => exact .refl _
  | some a =>
      dsimp only
      cases hs : a.stage with
      | ready e => exact .refl _
      | nothing => exact .refl _
      | starting peer tagKey frame =>
          have hn : a.h = none := by rw [Attempt.h, hs]
          dsimp only
          cases he : Engine.start a.role ⟨r.ik, r.peerIkPub, tagKey⟩ d now with
          | error err =>
              dsimp only
              refine (Leads.nothing ha hn).trans ?_
              split
              · exact .clearAttempt _ peer
              · exact .refl _
          | ok e =>
              dsimp only
              split
              · exact .nothing ha hn
              · obtain ⟨hsound, hopts⟩ := Engine.sound_start he
                have hopened : Leads K r (r.opened i peer e) := by
                  refine .opened ha hn fun h => ⟨hsound, ?_⟩
                  have hstage := h.stages i a ha
                  rw [hs] at hstage
                  rw [hopts]
                  exact ⟨h.ik, h.peerIkPub, hstage⟩
                cases frame with
                | none => exact hopened
                | some data => exact hopened.trans (.push trivial)

theorem Leads.settled (r : Seam C) (i : Nat) (now jitter : Time) : Leads K r (r.settled S i now jitter) := by
  unfold Seam.settled
  cases ha : r.made[i]? with
  | none => exact .refl _
  | some a =>
      dsimp only
      cases hout : a.h.bind (·.session) with
      | none => exact .refl _
      | some out =>
          obtain ⟨e, he, hsession⟩ := Option.bind_eq_some_iff.mp hout
          dsimp only
          split
          · exact .refl _
          · have htold : Leads K r { r with toAttempts := r.update i fun a => { a with told := true } } :=
              .update (fun _ => ⟨rfl, rfl⟩) fun h a ha => .same h ha id rfl
            refine htold.trans ?_
            split
            · exact .refl _
            · rename_i hlive
              rw [Bool.or_eq_true, not_or, Bool.not_eq_true', Bool.not_eq_false] at hlive
              cases out with
              | error err => exact .failed _ _ a now jitter
              | ok s =>
                  refine Leads.trans ?_ (.retireOtherPeers _ _ _)
                  exact .install (beq_iff_eq.mp hlive.2) ((Attempts.made_to_update ha).trans (congrArg some (if_pos rfl)))
                    he hsession

theorem Leads.timeout (r : Seam C) (i : Nat) (now jitter : Time) : Leads K r (r.timeout i now jitter) := by
  unfold Seam.timeout
  cases r.made[i]? with
  | none => exact .refl _
  | some a =>
      dsimp only
      split
      · change Leads K { r with timeouts := r.timeouts.filter (· ≠ i) } _
        split
        · exact .failed _ _ a now jitter
        · exact .refl _
      · exact .refl _

theorem Leads.resend (r : Seam C) (i : Nat) : Leads K r (r.resend i) := by
  unfold Seam.resend
  split
  · split <;> exact .refl _
  · exact .refl _

theorem Leads.retry (r : Seam C) (k : Nat) (now : Time) : Leads K r (r.retry k now) := by
  unfold Seam.retry
  split
  · dsimp only
    split
    · split
      · exact .beginHandshake _ _ _ _ _
      · exact .refl _
    · change Leads K { r with retries := r.retries.set k none } _
      exact .maybeHandshake _ _ _
  · exact .refl _

/-! ## What a frame does -/

theorem liveInitiators_eq {old : PeerId} {i : Nat} (h : r.liveInitiators = [(old, i)]) :
    r.handshakes.get old = some i := by
  have hmem : (old, i) ∈ r.liveInitiators := by rw [h]; exact List.mem_singleton_self _
  exact OrdMap.get_eq_some.mpr (List.mem_filter.mp hmem).1

theorem Leads.followMovedPeer {from_ : PeerId} (now : Time) (hfree : r.handshakes.get from_ = none) :
    Leads K r (r.followMovedPeer S from_ now).1 := by
  unfold Seam.followMovedPeer
  split
  · rename_i old i hone
    dsimp only
    split
    · exact .refl _
    · have hmove := Attempts.Leads.move (K := K) (liveInitiators_eq hone) hfree
      split <;> exact hmove
  · exact .refl _

theorem Leads.onHandshakeFrame (r : Seam C) (data : Bytes) (from_ : PeerId) (now : Time) :
    Leads K r (r.onHandshakeFrame S data from_ now) := by
  unfold Seam.onHandshakeFrame
  split
  · exact .refl _
  split
  · exact .refl _
  split
  · cases (r.handshakes.get from_).bind fun i => r.made[i]? with
    | none => exact .beginHandshake _ _ _ _ _
    | some a =>
        dsimp only
        split
        · exact .refl _
        · split
          · exact .refl _
          · exact .beginHandshake _ _ _ _ _
  · cases hg : r.handshakes.get from_ with
    | some i => exact .feed _ i data from_ now
    | none =>
        have hmove : Leads K r (r.followMovedPeer S from_ now).1 := .followMovedPeer now hg
        dsimp only
        cases hf : r.followMovedPeer S from_ now with
        | mk r' oi =>
            rw [hf] at hmove
            cases oi with
            | none => exact hmove
            | some i => exact hmove.trans (.feed _ i data from_ now)

theorem Leads.resume (r : Seam C) (k : Nat) (d : Fresh C) (now : Time) : Leads K r (r.resume k d now) := by
  unfold Seam.resume
  split
  · rename_i t ht
    intro h
    have hfits : Attempts.Fits { r with tasks := r.tasks.set k none }.toAttempts t := h.tasks t (List.mem_of_getElem? ht)
    have htake : Leads K r { r with tasks := r.tasks.set k none } := .take _ k
    refine (htake.trans ?_) h
    generalize { r with tasks := r.tasks.set k none } = r at hfits ⊢
    dsimp only
    cases t with
    | begun i from_ data => exact .feed _ i data from_ now
    | feeding i from_ f =>
        dsimp only
        split
        · exact .refl _
        · rename_i e he
          obtain ⟨a, ha, he⟩ := Option.bind_eq_some_iff.mp he
          obtain ⟨a', e', ha', he', hf⟩ := hfits
          rw [ha] at ha'
          cases ha'
          rw [he] at he'
          cases he'
          exact .stepped ha he fun h => (h.ready ha he).1.resume hf
    | fed i from_ out =>
        cases out with
        | ok reply =>
            cases reply with
            | none => exact .refl _
            | some reply => exact .update (fun _ => ⟨rfl, rfl⟩) fun h a ha => .same h ha id rfl
        | error err =>
            cases err with
            | completed => exact .refl _
            | handshake e =>
                dsimp only
                split
                · exact .notOurContact _ _ _
                · exact .refl _
  · exact .refl _

theorem Leads.rekeyOld (now : Time) (r : Seam C) (e : PeerId × Time) : Leads K r (r.rekeyOld now e) := by
  unfold Seam.rekeyOld
  split
  · exact .refl _
  · split
    · exact .refl _
    · split
      · exact .beginHandshake _ _ _ _ _
      · exact .refl _

theorem Leads.sweep (r : Seam C) (now : Time) : Leads K r (r.sweep S now) := by
  unfold Seam.sweep
  dsimp only
  change Leads K { r with lastSeen := r.lastSeen.filter fun _ t => decide (now - t ≤ S.ttlMs) } _
  refine Leads.trans ?_ (.foldl (.rekeyOld now) _ _)
  split
  · exact .foldl .retire _ _
  · exact .refl _

theorem Leads.stop (r : Seam C) : Leads K r r.stop := by
  unfold Seam.stop
  exact .foldl .clearAttempt _ r

/-- A room moves to another topic, under the announce key of a day. -/
theorem Leads.retarget (r : Seam C) (newTopic : String) {macKey : Bytes} (now : Time) (hday : K.tagKey (initiatorTagKey C macKey)) :
    Leads K r (r.retarget newTopic macKey now) := by
  unfold Seam.retarget
  split
  · exact .refl _
  · have hmoved : Leads K r { r with topic := newTopic, macKey := macKey } := fun h =>
      ⟨⟨⟨h.held, h.live⟩, h.ik, h.peerIkPub, hday, h.stages, h.tasks, h.installs⟩, fun _ => id, fun _ _ => rfl⟩
    exact (hmoved.trans (.foldl .clearAttempt _ _)).trans (.foldl (fun r p => .maybeHandshake r p now) _ _)

/-- A room is moved under the announce key of a day only. -/
def Dated (K : Owner C.toPrimitives) : SeamAct C → Prop
  | .retarget _ macKey _ => K.tagKey (initiatorTagKey C macKey)
  | _ => True

theorem Leads.act (r : Seam C) {a : SeamAct C} (ha : Dated K a) : Leads K r (r.act S a) := by
  cases a with
  | touch peer now =>
      change Leads K { r with lastSeen := r.lastSeen.set peer now } _
      exact .maybeHandshake _ _ _
  | left peer => exact .clear _ peer
  | frame data from_ now =>
      rw [Seam.act]
      split
      · exact .refl _
      · exact .onHandshakeFrame _ _ _ _
  | resume k d now => exact .resume r k d now
  | started i d now => exact .started r i d now
  | settled i now jitter => exact .settled r i now jitter
  | timeout i now jitter => exact .timeout r i now jitter
  | resend i => exact .resend r i
  | retry k now => exact .retry r k now
  | sweep now =>
      rw [Seam.act]
      split
      · exact .refl _
      · exact .sweep _ _
  | retarget newTopic macKey now => exact .retarget r newTopic now ha
  | stop => exact .stop r

end Seam

namespace Attempts

/-- An attempt that is still a peer's, in any sense. -/
def Live (t : Attempts C) (i : Nat) (p : PeerId) : Prop :=
  ∃ a : Attempt C, t.made[i]? = some a ∧ a.peer = p ∧ (a.cancelled = false ∨ t.handshakes.get p = some i)

/-- Cancelled, or not its peer's handshake. -/
def Abandoned (t : Attempts C) (i : Nat) : Prop :=
  ∃ a : Attempt C, t.made[i]? = some a ∧ (a.cancelled = true ∨ t.handshakes.get a.peer ≠ some i)

variable {t : Attempts C}

theorem Keyed.live_eq (h : t.Keyed) {i : Nat} {p : PeerId} (hl : t.Live i p) : t.handshakes.get p = some i := by
  obtain ⟨a, ha, rfl, hc | hg⟩ := hl
  · exact h.live i a ha hc
  · exact hg

theorem Keyed.gone (h : t.Keyed) {i : Nat} (hi : t.Abandoned i) : t.Gone i := by
  obtain ⟨a, ha, hc | hg⟩ := hi
  · exact ⟨a, ha, hc⟩
  · exact ⟨a, ha, (Bool.not_eq_false _).mp fun hc => hg (h.live i a ha hc)⟩

end Attempts

/-! ## Two rooms -/

/-- The identities of a pair, and the announce keys of its days. -/
structure Contacts (C : Suite) where
  ik : Side → C.Priv
  day : Bytes → Prop

def Contacts.owner (P : Contacts C) (X : Side) : Owner C.toPrimitives :=
  ⟨P.ik X, C.pub (P.ik X.other), fun k => ∃ m, P.day m ∧ k = initiatorTagKey C m⟩

/-- What a room is opened with. -/
structure Opening where
  macKey : Bytes
  self : PeerId
  lifetimeMs : Time
  topic : String

structure Meeting (C : Suite) where
  room : Side → Seam C

namespace Meeting

def start (P : Contacts C) (o : Side → Opening) : Meeting C :=
  ⟨fun X => .join (P.ik X) (C.pub (P.ik X.other)) (o X).macKey (o X).self (o X).lifetimeMs (o X).topic⟩

def act (S : Side → Settings) (w : Meeting C) (m : Side × SeamAct C) : Meeting C :=
  ⟨Function.update w.room m.1 ((w.room m.1).act (S m.1) m.2)⟩

/-- A room is moved under the announce key of a day only. -/
def Dated (P : Contacts C) (_ : Meeting C) (m : Side × SeamAct C) : Prop :=
  match m.2 with
  | .retarget _ macKey _ => P.day macKey
  | _ => True

/-- No two attempts of a peer are live; what was abandoned installs nothing, whatever comes; and two sessions of one
transcript go together. -/
structure Converges (P : Contacts C) (S : Side → Settings) (w : Meeting C) : Prop where
  one : ∀ X p i j, (w.room X).Live i p → (w.room X).Live j p → i = j
  abandoned : ∀ X i, (w.room X).Abandoned i → ∀ w', Reach (act S) (Dated P) w w' →
    (w'.room X).installsOf i = (w.room X).installsOf i
  agreed : ∀ x ∈ (w.room .a).installs, ∀ y ∈ (w.room .b).installs, x.session.msg1 = y.session.msg1 →
    x.session.msg2 = y.session.msg2 → x.session.ratchet.Agrees y.session.ratchet

variable {P : Contacts C} {S : Side → Settings} {o : Side → Opening} {w w' : Meeting C}

theorem inv_start (ho : ∀ X, P.day (o X).macKey) (X : Side) :
    Attempts.Inv (P.owner X) ((start P o).room X).toAttempts where
  held p i hi := by cases hi
  live i a ha := by cases ha
  ik := rfl
  peerIkPub := rfl
  macKey := ⟨_, ho X, rfl⟩
  stages i a ha := by cases ha
  tasks x hx := by cases hx
  installs x hx := by cases hx

theorem leads_act (w : Meeting C) {m : Side × SeamAct C} (hm : Dated P w m) (X : Side) :
    Seam.Leads (P.owner X) (w.room X) ((w.act S m).room X) := by
  obtain ⟨Y, a⟩ := m
  obtain rfl | hne := eq_or_ne X Y
  · simp only [act, Function.update_self]
    apply Seam.Leads.act
    cases a with
    | retarget newTopic macKey now => exact ⟨macKey, hm, rfl⟩
    | _ => trivial
  · simp only [act, Function.update_of_ne hne]
    exact .refl _

theorem leads_reach (h : Reach (act S) (Dated P) w w') (X : Side) : Seam.Leads (P.owner X) (w.room X) (w'.room X) := by
  induction h with
  | start => exact .refl _
  | step m _ hm ih => exact ih.trans (leads_act _ hm X)

/-- Whatever reaches the rooms, in any order: their handshakes converge. -/
theorem converges (S : Side → Settings) (T : Paired (P.owner .a) (P.owner .b)) (ho : ∀ X, P.day (o X).macKey)
    (w : Meeting C) (h : Reach (act S) (Dated P) (start P o) w) : w.Converges P S := by
  have hinv : ∀ X, Attempts.Inv (P.owner X) (w.room X).toAttempts := fun X => (leads_reach h X (inv_start ho X)).1
  constructor
  · intro X p i j hi hj
    have hget := (hinv X).live_eq hi
    rw [(hinv X).live_eq hj] at hget
    exact (Option.some.inj hget).symm
  · intro X i hi w' hw'
    exact (leads_reach hw' X (hinv X)).2.installs i ((hinv X).gone hi)
  · intro x hx y hy h1 h2
    obtain ⟨p, hp, hpx⟩ := (hinv .a).installs x hx
    obtain ⟨q, hq, hqy⟩ := (hinv .b).installs y hy
    exact T.agrees hp hq hpx hqy h1 h2

end Meeting

/-! ## Two rooms that both begin -/

namespace Crossed

open Handshake.Symbolic (primitives digest pub)

def suite : Suite :=
  { primitives with dhStep := fun rk ikm => (digest 32 (1 :: (rk ++ ikm)), digest 32 (2 :: (rk ++ ikm))) }

def announceKey : Bytes := List.replicate 32 9

/-- Member 3 and member 5, on one day. -/
def contacts : Contacts suite where
  ik
    | .a => (3 : UInt8)
    | .b => (5 : UInt8)
  day k := k = announceKey

def opening : Side → Opening
  | .a => ⟨announceKey, "A", 10, "topic"⟩
  | .b => ⟨announceKey, "B", 10, "topic"⟩

/-- A turn of a room, or a frame that one room sent and the other gets. -/
inductive Cue where
  | act (X : Side) (a : SeamAct suite)
  | carry (X : Side) (n : Nat)

def Cue.move (w : Meeting suite) : Cue → Side × SeamAct suite
  | .act X a => (X, a)
  | .carry X n => (X.other, .frame ((w.room X).sent.getD n []) (w.room X).self 1)

def draw (x : UInt8) : Fresh suite := ⟨x, x, x⟩

/-- Both have sent a msg1: that of B is ignored, that of A is answered by another attempt of B. -/
def crossed : List Cue :=
  [.act .a (.touch "B" 0), .act .b (.touch "A" 0), .act .a (.started 0 (draw 13) 0), .act .b (.started 0 (draw 17) 0),
    .carry .b 0, .carry .a 0, .act .b (.started 1 (draw 19) 1)]

/-- The rest of the handshake. -/
def finish : List Cue :=
  [.act .b (.resume 0 (draw 0) 1), .act .b (.resume 1 (draw 19) 1), .act .b (.resume 2 (draw 0) 1), .carry .b 1,
    .act .a (.resume 0 (draw 0) 1), .act .a (.resume 1 (draw 0) 1), .act .a (.settled 0 1 0),
    .act .a (.resume 2 (draw 0) 1), .carry .a 1, .act .b (.resume 3 (draw 0) 1), .act .b (.resume 4 (draw 0) 1),
    .act .b (.resume 5 (draw 0) 1), .act .b (.settled 1 1 0)]

def run (cs : List Cue) : Meeting suite :=
  cs.foldl (fun w c => Meeting.act (fun _ => {}) w (c.move w)) (Meeting.start contacts opening)

theorem dh_pub (x y : UInt8) : Handshake.Symbolic.dh x (pub y) =
    Handshake.Symbolic.pad (if x ≤ y then [1, x, y] else [1, y, x]) 32 := if_pos rfl

theorem dh_comm (x y : UInt8) : Handshake.Symbolic.dh x (pub y) = Handshake.Symbolic.dh y (pub x) := by
  rw [dh_pub, dh_pub]
  by_cases hle : x ≤ y
  · by_cases hge : y ≤ x
    · rw [UInt8.le_antisymm hle hge]
    · rw [if_pos hle, if_neg hge]
  · rw [if_neg hle, if_pos ((UInt8.le_total x y).resolve_left hle)]

theorem paired : Paired (contacts.owner .a) (contacts.owner .b) where
  peer := rfl
  peer' := rfl
  dh_comm x y d d' hd hd' := by
    have hd : Handshake.Symbolic.dh x (pub y) = d := Option.some.inj hd
    have hd' : Handshake.Symbolic.dh y (pub x) = d' := Option.some.inj hd'
    exact hd.symm.trans ((dh_comm x y).trans hd')
  kem k m ct ss ss' he hd := by
    cases he
    cases hd
    rfl
  tags k k' hk hk' := by
    obtain ⟨_, rfl, rfl⟩ := or_self_iff.mp hk
    obtain ⟨_, rfl, rfl⟩ := or_self_iff.mp hk'
    decide +kernel

theorem crossed_converges : (run (crossed ++ finish)).Converges contacts (fun _ => {}) ∧
    (∃ x ∈ ((run (crossed ++ finish)).room .a).installs, ∃ y ∈ ((run (crossed ++ finish)).room .b).installs,
      x.session.msg1 = y.session.msg1 ∧ x.session.msg2 = y.session.msg2) ∧
    ((run (crossed ++ finish)).room .b).Abandoned 0 := by
  refine ⟨Meeting.converges (o := opening) _ paired ?_ _ ?_, by decide +kernel, ?_⟩
  · intro X
    cases X <;> rfl
  · refine Reach.choose Cue.move (Admits.reach .start ?_)
    simp [crossed, finish, Admits, Meeting.Dated, Cue.move]
  · have hc : ∀ a ∈ ((run (crossed ++ finish)).room .b).made[0]?, a.cancelled = true := by decide +kernel
    obtain ⟨a, ha⟩ := Option.isSome_iff_exists.mp
      (show (((run (crossed ++ finish)).room .b).made[0]?).isSome = true by decide +kernel)
    exact ⟨a, ha, Or.inl (hc a ha)⟩

end Crossed

end EncedoChat.Room
