import Mathlib.Data.List.Nodup
import EncedoChat.Lib.Run
import EncedoChat.Light.Adapter

/-!
# Whose acknowledgement it is

What waits in a topic's queue are publishes whose ACKs are still to come on the live stream, in the order they come. So
a publish that is still waiting when its ACK is handled is the first of its queue; and only where one that waits no
longer is acknowledged can the ACK go to another.
-/

namespace EncedoChat.Light

variable {ρ τ : Type} [DecidableEq ρ] [DecidableEq τ]

/-- The publishes of a topic among what the client sent. -/
def pushes (t : τ) (fs : List (Up τ)) : List Nat :=
  fs.filterMap fun f => match f with
    | .push t' _ k => if t' = t then some k else none
    | _ => none

/-- The publishes of a topic that the relay acknowledged. -/
def acks (t : τ) (fs : List (Down τ)) : List Nat :=
  fs.filterMap fun f => match f with
    | .ack t' _ k => if t' = t then some k else none
    | _ => none

theorem pushes_append (t : τ) (a b : List (Up τ)) : pushes t (a ++ b) = pushes t a ++ pushes t b :=
  List.filterMap_append

theorem acks_append (t : τ) (a b : List (Down τ)) : acks t (a ++ b) = acks t a ++ acks t b := List.filterMap_append

theorem pushes_cons (t : τ) (f : Up τ) (fs : List (Up τ)) : pushes t (f :: fs) = pushes t [f] ++ pushes t fs :=
  pushes_append t [f] fs

theorem acks_cons (t : τ) (f : Down τ) (fs : List (Down τ)) : acks t (f :: fs) = acks t [f] ++ acks t fs :=
  acks_append t [f] fs

/-- The answer to a frame acknowledges what the frame publishes. -/
theorem acks_answer (t : τ) (f : Up τ) (ok : Bool) (n : Nat) : acks t (Peer.answer f ok n) = pushes t [f] := by
  cases f with
  | pick topic k => cases ok <;> rfl
  | drop topic => rfl
  | push topic data k => rfl

/-- The publishes of a topic whose ACKs are still to come on a stream, in their order. -/
def Stream.outstanding (st : Stream ρ τ) (t : τ) : List Nat := acks t st.down ++ pushes t st.up

namespace Peer

/-- What the streams and the publishes have to do with each other. -/
structure Base (w : Peer ρ τ) : Prop where
  owed : ∀ s st t k, w.streams.get s = some st → k ∈ st.outstanding t →
    ∃ p, w.publishes.get k = some p ∧ p.topic = t ∧ p.stream = s
  once : ∀ s st t, w.streams.get s = some st → (st.outstanding t).Nodup
  said : ∀ s st f, w.streams.get s = some st → f ∈ st.down → f ∈ st.said
  sent : ∀ k p, w.publishes.get k = some p →
    ∃ st data, w.streams.get p.stream = some st ∧ .push p.topic data k ∈ st.sent
  truth : ∀ k p n, w.publishes.get k = some p → p.reach = some (some n) →
    ∃ st, w.streams.get p.stream = some st ∧ .ack p.topic n k ∈ st.said
  streams : ∀ s st, w.streams.get s = some st → s < w.fresh
  publishes : ∀ k p, w.publishes.get k = some p → k < w.fresh

/-- And the queues with the live stream. -/
structure Inv (w : Peer ρ τ) : Prop extends Base w where
  current : ∀ s, w.current = some s → ∃ st, w.streams.get s = some st ∧ st.closed = false
  live : ∀ s, w.stream = some s → w.current = some s
  queue : ∀ t q, w.waitingAck.get t = some q → q ≠ [] →
    ∃ s st, w.stream = some s ∧ w.streams.get s = some st ∧ q.Sublist (st.outstanding t)
  waits : ∀ t q k, w.waitingAck.get t = some q → k ∈ q → ∃ p, w.publishes.get k = some p ∧ p.reach = none

/-- The publishes of a topic that wait for their ACKs. -/
def waiting (w : Peer ρ τ) (t : τ) : List Nat := (w.waitingAck.get t).getD []

/-- A frame is no ACK, or one whose publish still waits, or of a topic of which none waits. -/
def Expected (w : Peer ρ τ) : Down τ → Prop
  | .ack t _ k => k ∉ w.waiting t → w.waiting t = []
  | _ => True

instance (w : Peer ρ τ) : (f : Down τ) → Decidable (w.Expected f)
  | .ack t _ k => inferInstanceAs (Decidable (k ∉ w.waiting t → w.waiting t = []))
  | .picked .. | .refused .. | .deliver .. => isTrue trivial

/-- An ACK that is handled is expected. -/
def AckMeets (w : Peer ρ τ) : Event ρ τ → Prop
  | .arrive s => ∀ st ∈ w.streams.get s, ∀ f ∈ st.down.head?, w.Expected f
  | _ => True

instance (w : Peer ρ τ) (e : Event ρ τ) : Decidable (w.AckMeets e) := by
  cases e <;> unfold AckMeets <;> infer_instance

variable {w : Peer ρ τ}

omit [DecidableEq ρ] in
theorem Inv.start : (start : Peer ρ τ).Inv where
  owed s st t k h := by cases h
  once s st t h := by cases h
  said s st f h := by cases h
  sent k p h := by cases h
  truth k p n h := by cases h
  streams s st h := by cases h
  publishes k p h := by cases h
  current s h := by cases h
  live s h := by cases h
  queue t q h := by cases h
  waits t q k h := by cases h

/-! ## A stream changes -/

/-- A stream after frames went over it: no more publishes are to be acknowledged. -/
structure Later (st st' : Stream ρ τ) : Prop where
  fewer : ∀ t, (st'.outstanding t).Sublist (st.outstanding t)
  sent : ∀ f ∈ st.sent, f ∈ st'.sent
  said : ∀ f ∈ st.said, f ∈ st'.said
  down : (∀ f ∈ st.down, f ∈ st.said) → ∀ f ∈ st'.down, f ∈ st'.said

/-- The same publishes are. -/
structure Onward (st st' : Stream ρ τ) : Prop where
  outstanding : ∀ t, st'.outstanding t = st.outstanding t
  sent : ∀ f ∈ st.sent, f ∈ st'.sent
  said : ∀ f ∈ st.said, f ∈ st'.said
  down : (∀ f ∈ st.down, f ∈ st.said) → ∀ f ∈ st'.down, f ∈ st'.said

omit [DecidableEq ρ] in
theorem Onward.later {st st' : Stream ρ τ} (h : Onward st st') : Later st st' :=
  ⟨fun t => (h.outstanding t).symm ▸ List.Sublist.refl _, h.sent, h.said, h.down⟩

omit [DecidableEq ρ] in
theorem Base.put (h : w.Base) {s : Nat} {st st' : Stream ρ τ} (hst : w.streams.get s = some st) (ho : Later st st') :
    (w.put s st').Base where
  owed s' u t k hu hk := by
    obtain ⟨rfl, rfl⟩ | ⟨-, hold⟩ := OrdMap.get_set_some hu
    · exact h.owed _ st t k hst ((ho.fewer t).subset hk)
    · exact h.owed s' u t k hold hk
  once s' u t hu := by
    obtain ⟨rfl, rfl⟩ | ⟨-, hold⟩ := OrdMap.get_set_some hu
    · exact (h.once _ st t hst).sublist (ho.fewer t)
    · exact h.once s' u t hold
  said s' u f hu := by
    obtain ⟨rfl, rfl⟩ | ⟨-, hold⟩ := OrdMap.get_set_some hu
    · exact ho.down (fun g => h.said _ st g hst) f
    · exact h.said s' u f hold
  sent k p hp := by
    obtain ⟨u, data, hu, hmem⟩ := h.sent k p hp
    by_cases hs : p.stream = s
    · subst hs
      cases hu.symm.trans hst
      exact ⟨st', data, OrdMap.get_set_self .., ho.sent _ hmem⟩
    · exact ⟨u, data, (OrdMap.get_set_ne _ _ hs).trans hu, hmem⟩
  truth k p n hp hr := by
    obtain ⟨u, hu, hmem⟩ := h.truth k p n hp hr
    by_cases hs : p.stream = s
    · subst hs
      cases hu.symm.trans hst
      exact ⟨st', OrdMap.get_set_self .., ho.said _ hmem⟩
    · exact ⟨u, (OrdMap.get_set_ne _ _ hs).trans hu, hmem⟩
  streams s' u hu := by
    obtain ⟨rfl, -⟩ | ⟨-, hold⟩ := OrdMap.get_set_some hu
    · exact h.streams _ st hst
    · exact h.streams s' u hold
  publishes := h.publishes

theorem Inv.put (h : w.Inv) {s : Nat} {st st' : Stream ρ τ} (hst : w.streams.get s = some st) (ho : Onward st st')
    (hclosed : st'.closed = st.closed) : (w.put s st').Inv where
  toBase := h.toBase.put hst ho.later
  current c hc := by
    obtain ⟨u, hu, hopen⟩ := h.current c hc
    by_cases hs : c = s
    · subst hs
      cases hu.symm.trans hst
      exact ⟨st', OrdMap.get_set_self .., hclosed.trans hopen⟩
    · exact ⟨u, (OrdMap.get_set_ne _ _ hs).trans hu, hopen⟩
  live := h.live
  queue t q hq hne := by
    obtain ⟨c, u, hc, hu, hsub⟩ := h.queue t q hq hne
    by_cases hs : c = s
    · subst hs
      cases hu.symm.trans hst
      exact ⟨c, st', hc, OrdMap.get_set_self .., ho.outstanding t ▸ hsub⟩
    · exact ⟨c, u, hc, (OrdMap.get_set_ne _ _ hs).trans hu, hsub⟩
  waits := h.waits

omit [DecidableEq ρ] in
theorem Onward.closed (st : Stream ρ τ) : Onward st { st with closed := true } :=
  ⟨fun _ => rfl, fun _ h => h, fun _ h => h, fun h => h⟩

omit [DecidableEq ρ] in
/-- A frame that publishes nothing. -/
theorem Onward.sent_other {st : Stream ρ τ} {f : Up τ} (hf : ∀ t, pushes t [f] = []) :
    Onward st { st with up := st.up ++ [f], sent := st.sent ++ [f] } where
  outstanding t := by
    rw [Stream.outstanding, pushes_append, hf, List.append_nil]
    rfl
  sent _ h := List.mem_append_left _ h
  said _ h := h
  down h := h

omit [DecidableEq ρ] in
theorem Onward.said_other {st : Stream ρ τ} {f : Down τ} (hf : ∀ t, acks t [f] = []) :
    Onward st { st with down := st.down ++ [f], said := st.said ++ [f] } where
  outstanding t := by
    rw [Stream.outstanding, acks_append, hf, List.append_nil]
    rfl
  sent _ h := h
  said _ h := List.mem_append_left _ h
  down h g hg := by
    obtain hg | hg := List.mem_append.mp hg
    · exact List.mem_append_left _ (h g hg)
    · exact List.mem_append_right _ hg

omit [DecidableEq ρ] in
theorem Onward.served {st : Stream ρ τ} {f : Up τ} {fs : List (Up τ)} (hup : st.up = f :: fs) (ok : Bool) (n : Nat) :
    Onward st { st with up := fs, down := st.down ++ answer f ok n, said := st.said ++ answer f ok n } where
  outstanding t := by
    rw [Stream.outstanding, Stream.outstanding, hup, pushes_cons, acks_append, acks_answer, List.append_assoc]
  sent _ h := h
  said _ h := List.mem_append_left _ h
  down h g hg := by
    obtain hg | hg := List.mem_append.mp hg
    · exact List.mem_append_left _ (h g hg)
    · exact List.mem_append_right _ hg

omit [DecidableEq ρ] in
theorem Onward.handled {st : Stream ρ τ} {f : Down τ} {fs : List (Down τ)} (hdown : st.down = f :: fs)
    (hf : ∀ t, acks t [f] = []) : Onward st { st with down := fs } where
  outstanding t := by rw [Stream.outstanding, Stream.outstanding, hdown, acks_cons, hf, List.nil_append]
  sent _ h := h
  said _ h := h
  down h g hg := h g (hdown ▸ List.mem_cons_of_mem f hg)

/-! ## A publish is settled -/

/-- What is settled is settled rightly: without evidence, or with the reach that the relay gave. -/
theorem Base.settle (h : w.Base) {k : Nat} {n : Option Nat}
    (htrue : ∀ p m, w.publishes.get k = some p → n = some m →
      ∃ st, w.streams.get p.stream = some st ∧ .ack p.topic m k ∈ st.said) : (w.settle k n).Base := by
  obtain heq | ⟨p, hp, hr, heq⟩ := w.settle_eq k n
  · rw [heq]
    exact h
  · rw [heq]
    exact { h with
      owed := fun s st t j hst hj => by
        obtain ⟨p', hp', htopic, hs⟩ := h.owed s st t j hst hj
        by_cases hjk : j = k
        · subst hjk
          cases hp'.symm.trans hp
          exact ⟨_, OrdMap.get_set_self .., htopic, hs⟩
        · exact ⟨p', (OrdMap.get_set_ne _ _ hjk).trans hp', htopic, hs⟩
      sent := fun j q hq => by
        obtain ⟨rfl, rfl⟩ | ⟨-, hold⟩ := OrdMap.get_set_some hq
        · exact h.sent _ p hp
        · exact h.sent j q hold
      truth := fun j q m hq hm => by
        obtain ⟨rfl, rfl⟩ | ⟨-, hold⟩ := OrdMap.get_set_some hq
        · exact htrue p m hp (Option.some.inj hm)
        · exact h.truth j q m hold hm
      publishes := fun j q hq => by
        obtain ⟨rfl, -⟩ | ⟨-, hold⟩ := OrdMap.get_set_some hq
        · exact h.publishes _ p hp
        · exact h.publishes j q hold }

theorem Base.settleAll (h : w.Base) (ks : List Nat) : (w.settleAll none ks).Base := by
  induction ks generalizing w with
  | nil => exact h
  | cons k ks ih => exact ih (h.settle fun _ _ _ hn => by cases hn)

/-! ## Streams come and go -/

/-- After `onClose` nothing waits. -/
theorem Inv.onClose (h : w.Base) (hcurrent : ∀ s, w.current = some s → ∃ st, w.streams.get s = some st ∧ st.closed = false) :
    w.onClose.Inv where
  toBase := { h.settleAll _ with }
  current s hs := by
    obtain ⟨hstreams, hsame⟩ := w.settleAll_same none (w.waitingAck.entries.flatMap Prod.snd)
    obtain ⟨st, hst, hopen⟩ := hcurrent s (hsame.symm.trans hs)
    exact ⟨st, (congrArg (fun m => OrdMap.get m s) hstreams).trans hst, hopen⟩
  live s hs := by cases hs
  queue t q hq := by cases hq
  waits t q k hq := by cases hq

theorem Inv.bye (h : w.Inv) (s : Nat) : (w.bye s).Inv := by
  obtain ⟨heq, -⟩ | ⟨st, hst, -, ⟨hc, heq⟩ | ⟨-, heq⟩⟩ := w.bye_eq s
  · rw [heq]
    exact h
  · rw [heq]
    have hne : ∀ c, w.current = some c → c ≠ s := fun c hc' heq => hc (heq ▸ hc')
    exact
      { toBase := h.toBase.put hst (Onward.closed st).later
        current := fun c hc' => by
          obtain ⟨u, hu, hopen⟩ := h.current c hc'
          exact ⟨u, (OrdMap.get_set_ne _ _ (hne c hc')).trans hu, hopen⟩
        live := h.live
        queue := fun t q hq hq' => by
          obtain ⟨c, u, hc', hu, hsub⟩ := h.queue t q hq hq'
          exact ⟨c, u, hc', (OrdMap.get_set_ne _ _ (hne c (h.live c hc'))).trans hu, hsub⟩
        waits := h.waits }
  · rw [heq]
    exact .onClose { h.toBase.put hst (Onward.closed st).later with } fun c hc => by cases hc

/-- The live stream ends. -/
theorem Inv.bye_live (h : w.Inv) {s : Nat} (hs : w.stream = some s) : (w.bye s).stream = none := by
  obtain ⟨-, hclosed⟩ | ⟨st, -, -, ⟨hc, -⟩ | ⟨-, heq⟩⟩ := w.bye_eq s
  · obtain ⟨st, hst, hopen⟩ := h.current s (h.live s hs)
    cases (hclosed st hst).symm.trans hopen
  · exact absurd (h.live s hs) hc
  · rw [heq]
    rfl

theorem Inv.send (h : w.Inv) (s : Nat) {f : Up τ} (hf : ∀ t, pushes t [f] = []) : (w.send s f).Inv := by
  rw [Peer.send]
  split
  · exact h
  · split
    · exact h
    · exact h.put ‹_› (.sent_other hf) rfl

/-- `stream?.send(frame)` -/
theorem Inv.tell (h : w.Inv) {f : Up τ} (hf : ∀ t, pushes t [f] = []) (o : Option Nat) :
    (o.elim w fun s => w.send s f).Inv := by
  cases o with
  | none => exact h
  | some s => exact h.send s hf

omit [DecidableEq ρ] in
theorem Inv.later (h : w.Inv) {n : Nat} (hn : w.fresh ≤ n) : ({ w with fresh := n } : Peer ρ τ).Inv :=
  { h with
    streams := fun s st hst => (h.streams s st hst).trans_le hn
    publishes := fun k p hp => (h.publishes k p hp).trans_le hn }

theorem Inv.sendPick (h : w.Inv) (topic : τ) : (w.sendPick topic).Inv := by
  rw [Peer.sendPick]
  split
  · exact h
  · refine (h.send _ fun t => rfl).later ?_
    rw [send_fresh]
    exact Nat.le_succ _

theorem Inv.sendPicks (h : w.Inv) (topics : List τ) : (topics.foldl Peer.sendPick w).Inv := by
  induction topics generalizing w with
  | nil => exact h
  | cons t ts ih => exact ih (h.sendPick t)

omit [DecidableEq ρ] in
/-- Where no stream is live, nothing waits. -/
theorem Inv.idle (h : w.Inv) (hs : w.stream = none) {t : τ} {q : List Nat} (hq : w.waitingAck.get t = some q) : q = [] := by
  by_contra hne
  obtain ⟨s, _, hlive, -⟩ := h.queue t q hq hne
  cases hlive.symm.trans hs

theorem Inv.attach (h : w.Inv) (toRelayId : ρ) : (w.attach toRelayId).Inv := by
  have hbye : (w.stream.elim w w.bye).Inv ∧ (w.stream.elim w w.bye).stream = none := by
    cases hs : w.stream with
    | none => exact ⟨h, hs⟩
    | some s => exact ⟨h.bye s, h.bye_live hs⟩
  rw [Peer.attach]
  generalize w.stream.elim w w.bye = v at hbye
  obtain ⟨hv, hidle⟩ := hbye
  have hne : ∀ s st, v.streams.get s = some st → s ≠ v.fresh := fun s st hst => (hv.streams s st hst).ne
  have hget : ∀ s st, v.streams.get s = some st →
      (v.streams.set v.fresh ⟨toRelayId, [], [], false, [], []⟩).get s = some st :=
    fun s st hst => (OrdMap.get_set_ne _ _ (hne s st hst)).trans hst
  exact
    { owed := fun s st t k hst hk => by
        obtain ⟨rfl, rfl⟩ | ⟨-, hold⟩ := OrdMap.get_set_some hst
        · cases hk
        · exact hv.owed s st t k hold hk
      once := fun s st t hst => by
        obtain ⟨rfl, rfl⟩ | ⟨-, hold⟩ := OrdMap.get_set_some hst
        · exact List.nodup_nil
        · exact hv.once s st t hold
      said := fun s st f hst hf => by
        obtain ⟨rfl, rfl⟩ | ⟨-, hold⟩ := OrdMap.get_set_some hst
        · cases hf
        · exact hv.said s st f hold hf
      sent := fun k p hp => by
        obtain ⟨st, data, hst, hmem⟩ := hv.sent k p hp
        exact ⟨st, data, hget _ _ hst, hmem⟩
      truth := fun k p n hp hr => by
        obtain ⟨st, hst, hmem⟩ := hv.truth k p n hp hr
        exact ⟨st, hget _ _ hst, hmem⟩
      streams := fun s st hst => by
        obtain ⟨rfl, -⟩ | ⟨-, hold⟩ := OrdMap.get_set_some hst
        · exact Nat.lt_succ_self _
        · exact (hv.streams s st hold).trans (Nat.lt_succ_self _)
      publishes := fun k p hp => (hv.publishes k p hp).trans (Nat.lt_succ_self _)
      current := fun s hs => by
        obtain rfl := Option.some.inj hs
        exact ⟨_, OrdMap.get_set_self .., rfl⟩
      live := fun s hs => by cases hs
      queue := fun t q hq hq' => absurd (hv.idle hidle hq) hq'
      waits := hv.waits }

theorem Inv.opened (h : w.Inv) (s : Nat) : (w.opened s).Inv := by
  rw [Peer.opened]
  by_cases hs : s ∈ w.opening
  · rw [if_pos hs]
    dsimp only
    by_cases hc : w.current = some s
    · rw [if_pos hc]
      refine Inv.sendPicks ?_ _
      exact { h with
        live := fun c hs' => hc.trans hs'
        queue := fun t q hq hq' => by
          obtain ⟨c, st, hlive, hst, hsub⟩ := h.queue t q hq hq'
          obtain rfl : c = s := Option.some.inj ((h.live c hlive).symm.trans hc)
          exact ⟨c, st, rfl, hst, hsub⟩ }
    · rw [if_neg hc]
      have hless : ({ w with opening := w.opening.erase s } : Peer ρ τ).Inv := { h with }
      exact hless.bye s
  · rw [if_neg hs]
    exact h

theorem Inv.detach (h : w.Inv) : w.detach.Inv := by
  have hbye : ∀ o : Option Nat, (o.elim { w with current := none } ({ w with current := none } : Peer ρ τ).bye).Base ∧
      (o.elim { w with current := none } ({ w with current := none } : Peer ρ τ).bye).current = none := by
    have hfree : ({ w with current := none } : Peer ρ τ).Base := { h.toBase with }
    intro o
    cases o with
    | none => exact ⟨hfree, rfl⟩
    | some s =>
        rw [Option.elim_some]
        obtain ⟨heq, -⟩ | ⟨st, hst, -, ⟨-, heq⟩ | ⟨hc, -⟩⟩ := ({ w with current := none } : Peer ρ τ).bye_eq s
        · rw [heq]
          exact ⟨hfree, rfl⟩
        · rw [heq]
          exact ⟨hfree.put hst (Onward.closed st).later, rfl⟩
        · cases hc
  obtain ⟨hbase, hnone⟩ := hbye w.stream
  exact .onClose hbase fun s hs => by cases hnone.symm.trans hs

theorem Inv.subscribe (h : w.Inv) (topic : τ) : (w.subscribe topic).Inv := by
  rw [Peer.subscribe]
  split
  · exact h
  · have hmore : ({ w with held := w.held ++ [topic] } : Peer ρ τ).Inv := { h with }
    exact hmore.sendPick topic

theorem Inv.unsubscribe (h : w.Inv) (topic : τ) : (w.unsubscribe topic).Inv := by
  have hless : ({ w with held := w.held.erase topic, picked := w.picked.erase topic } : Peer ρ τ).Inv := { h with }
  have hdrop : ∀ t, pushes t [Up.drop topic] = [] := fun _ => rfl
  rw [Peer.unsubscribe]
  split
  · exact hless.tell hdrop w.stream
  · exact h

/-! ## Publishes -/

omit [DecidableEq ρ] in
/-- A new publish goes to the end of its queue, as its PUSH goes to the end of the stream. -/
theorem Inv.publish (h : w.Inv) (topic : τ) (data : Bytes) : (w.publish topic data).Inv := by
  cases hs : w.stream with
  | none =>
      rw [Peer.publish, hs]
      exact h
  | some s =>
      obtain ⟨st, hst, hopen⟩ := h.current s (h.live s hs)
      have hsend : w.send s (.push topic data w.fresh) =
          w.put s { st with up := st.up ++ [.push topic data w.fresh], sent := st.sent ++ [.push topic data w.fresh] } := by
        rw [Peer.send, hst]
        dsimp only
        rw [hopen]
        rfl
      have hout : ∀ t, Stream.outstanding
          { st with up := st.up ++ [.push topic data w.fresh], sent := st.sent ++ [.push topic data w.fresh] } t =
            st.outstanding t ++ if topic = t then [w.fresh] else [] := by
        intro t
        rw [Stream.outstanding, Stream.outstanding, pushes_append, ← List.append_assoc]
        congr 1
        by_cases ht : topic = t <;> simp [pushes, ht]
      have hnew : ∀ t, w.fresh ∉ st.outstanding t := by
        intro t hk
        obtain ⟨p, hp, -⟩ := h.owed s st t _ hst hk
        exact absurd (h.publishes _ p hp) (lt_irrefl _)
      have hkeep : ∀ k p, w.publishes.get k = some p → (w.publishes.set w.fresh ⟨topic, s, none⟩).get k = some p :=
        fun k p hp => (OrdMap.get_set_ne _ _ (h.publishes k p hp).ne).trans hp
      rw [Peer.publish, hs]
      dsimp only
      rw [hsend]
      have hget : ∀ s' u, w.streams.get s' = some u → ∃ u', (w.streams.set s { st with
          up := st.up ++ [.push topic data w.fresh], sent := st.sent ++ [.push topic data w.fresh] }).get s' = some u' ∧
            u'.said = u.said ∧ ∀ f ∈ u.sent, f ∈ u'.sent := by
        intro s' u hu
        by_cases hs' : s' = s
        · subst hs'
          cases hu.symm.trans hst
          exact ⟨_, OrdMap.get_set_self .., rfl, fun f hf => List.mem_append_left _ hf⟩
        · exact ⟨u, (OrdMap.get_set_ne _ _ hs').trans hu, rfl, fun f hf => hf⟩
      exact
        { owed := fun s' u t k hu hk => by
            obtain ⟨rfl, rfl⟩ | ⟨-, hold⟩ := OrdMap.get_set_some hu
            · rw [hout] at hk
              obtain hk | hk := List.mem_append.mp hk
              · obtain ⟨p, hp, hrest⟩ := h.owed _ st t k hst hk
                exact ⟨p, hkeep k p hp, hrest⟩
              · by_cases ht : topic = t
                · rw [if_pos ht] at hk
                  obtain rfl := List.mem_singleton.mp hk
                  exact ⟨_, OrdMap.get_set_self .., ht, rfl⟩
                · rw [if_neg ht] at hk
                  cases hk
            · obtain ⟨p, hp, hrest⟩ := h.owed s' u t k hold hk
              exact ⟨p, hkeep k p hp, hrest⟩
          once := fun s' u t hu => by
            obtain ⟨rfl, rfl⟩ | ⟨-, hold⟩ := OrdMap.get_set_some hu
            · rw [hout]
              split
              · exact List.nodup_append.mpr ⟨h.once _ st t hst, List.nodup_singleton _, fun a ha b hb hab =>
                  hnew t (List.mem_singleton.mp hb ▸ hab ▸ ha)⟩
              · rw [List.append_nil]
                exact h.once _ st t hst
            · exact h.once s' u t hold
          said := fun s' u f hu hf => by
            obtain ⟨rfl, rfl⟩ | ⟨-, hold⟩ := OrdMap.get_set_some hu
            · exact h.said _ st f hst hf
            · exact h.said s' u f hold hf
          sent := fun k p hp => by
            obtain ⟨rfl, rfl⟩ | ⟨-, hold⟩ := OrdMap.get_set_some hp
            · exact ⟨_, data, OrdMap.get_set_self .., List.mem_append_right _ (List.mem_singleton_self _)⟩
            · obtain ⟨u, data', hu, hmem⟩ := h.sent k p hold
              obtain ⟨u', hu', -, hsent⟩ := hget _ u hu
              exact ⟨u', data', hu', hsent _ hmem⟩
          truth := fun k p n hp hr => by
            obtain ⟨rfl, rfl⟩ | ⟨-, hold⟩ := OrdMap.get_set_some hp
            · cases hr
            · obtain ⟨u, hu, hmem⟩ := h.truth k p n hold hr
              obtain ⟨u', hu', hsaid, -⟩ := hget _ u hu
              exact ⟨u', hu', hsaid ▸ hmem⟩
          streams := fun s' u hu => by
            obtain ⟨rfl, -⟩ | ⟨-, hold⟩ := OrdMap.get_set_some hu
            · exact (h.streams _ st hst).trans (Nat.lt_succ_self _)
            · exact (h.streams s' u hold).trans (Nat.lt_succ_self _)
          publishes := fun k p hp => by
            obtain ⟨rfl, -⟩ | ⟨-, hold⟩ := OrdMap.get_set_some hp
            · exact Nat.lt_succ_self _
            · exact (h.publishes k p hold).trans (Nat.lt_succ_self _)
          current := fun c hc => by
            obtain rfl : c = s := Option.some.inj (hc.symm.trans (h.live s hs))
            exact ⟨_, OrdMap.get_set_self .., hopen⟩
          live := h.live
          queue := fun t q hq hne => by
            refine ⟨s, _, hs, OrdMap.get_set_self .., ?_⟩
            rw [hout]
            have hold : ((w.waitingAck.get t).getD []).Sublist (st.outstanding t) := by
              cases hq' : w.waitingAck.get t with
              | none => exact List.nil_sublist _
              | some q' =>
                  by_cases hne' : q' = []
                  · rw [hne']
                    exact List.nil_sublist _
                  · obtain ⟨c, u, hc, hu, hsub⟩ := h.queue t q' hq' hne'
                    cases hs.symm.trans hc
                    cases hst.symm.trans hu
                    exact hsub
            obtain ⟨rfl, rfl⟩ | ⟨hne', hq'⟩ := OrdMap.get_set_some hq
            · rw [if_pos rfl]
              exact hold.append (List.Sublist.refl _)
            · rw [hq'] at hold
              exact hold.trans (List.sublist_append_left ..)
          waits := fun t q k hq hk => by
            obtain ⟨rfl, rfl⟩ | ⟨-, hq'⟩ := OrdMap.get_set_some hq
            · obtain hk | hk := List.mem_append.mp hk
              · cases hq' : w.waitingAck.get t with
                | none =>
                    rw [hq'] at hk
                    cases hk
                | some q' =>
                    rw [hq'] at hk
                    obtain ⟨p, hp, hr⟩ := h.waits t q' k hq' hk
                    exact ⟨p, hkeep k p hp, hr⟩
              · obtain rfl := List.mem_singleton.mp hk
                exact ⟨_, OrdMap.get_set_self .., rfl⟩
            · obtain ⟨p, hp, hr⟩ := h.waits t q k hq' hk
              exact ⟨p, hkeep k p hp, hr⟩ }

omit [DecidableEq ρ] in
/-- A publish waits in the queue of its topic and nowhere else. -/
theorem Inv.waits_at (h : w.Inv) {t : τ} {q : List Nat} {k : Nat} {p : Publish τ} (hq : w.waitingAck.get t = some q)
    (hk : k ∈ q) (hp : w.publishes.get k = some p) : p.topic = t ∧ w.stream = some p.stream ∧ q.Nodup := by
  obtain ⟨s, st, hs, hst, hsub⟩ := h.queue t q hq (List.ne_nil_of_mem hk)
  obtain ⟨p', hp', htopic, hstream⟩ := h.owed s st t k hst (hsub.subset hk)
  cases hp'.symm.trans hp
  exact ⟨htopic, hstream ▸ hs, (h.once s st t hst).sublist hsub⟩

/-- A publish is settled and has left the queue. -/
theorem Inv.settle (h : w.Inv) {k : Nat} {n : Option Nat}
    (htrue : ∀ p m, w.publishes.get k = some p → n = some m →
      ∃ st, w.streams.get p.stream = some st ∧ .ack p.topic m k ∈ st.said)
    (hgone : ∀ t q, w.waitingAck.get t = some q → k ∉ q) : (w.settle k n).Inv where
  toBase := h.toBase.settle htrue
  current := by
    obtain ⟨hstreams, -, hcurrent, -⟩ := w.settle_same k n
    rw [hstreams, hcurrent]
    exact h.current
  live := by
    obtain ⟨-, hstream, hcurrent, -⟩ := w.settle_same k n
    rw [hstream, hcurrent]
    exact h.live
  queue := by
    obtain ⟨hstreams, hstream, -, hwaiting⟩ := w.settle_same k n
    rw [hstreams, hstream, hwaiting]
    exact h.queue
  waits t q j hq hj := by
    rw [(w.settle_same k n).2.2.2] at hq
    obtain ⟨p, hp, hr⟩ := h.waits t q j hq hj
    obtain heq | ⟨p', -, -, heq⟩ := w.settle_eq k n
    · exact ⟨p, by rw [heq]; exact hp, hr⟩
    · have hne : j ≠ k := fun hjk => hgone t q hq (hjk ▸ hj)
      rw [heq]
      exact ⟨p, (OrdMap.get_set_ne _ _ hne).trans hp, hr⟩

theorem Inv.timeout (h : w.Inv) (k : Nat) : (w.timeout k).Inv := by
  rw [Peer.timeout]
  cases hp : w.publishes.get k with
  | none => exact h
  | some p =>
      dsimp only
      split
      · exact h
      · have hq : ∀ t q, (w.waitingAck.map fun t q => if t = p.topic then q.erase k else q).get t = some q →
            ∃ q', w.waitingAck.get t = some q' ∧ q.Sublist q' ∧ k ∉ q := by
          intro t q hq
          rw [OrdMap.get_map] at hq
          obtain ⟨q', hq', rfl⟩ := Option.map_eq_some_iff.mp hq
          by_cases hk : k ∈ q'
          · obtain ⟨htopic, -, hnd⟩ := h.waits_at hq' hk hp
            refine ⟨q', hq', ?_⟩
            rw [if_pos htopic.symm]
            exact ⟨List.erase_sublist, hnd.not_mem_erase⟩
          · refine ⟨q', hq', ?_⟩
            split
            · exact ⟨List.erase_sublist, fun hk' => hk (List.mem_of_mem_erase hk')⟩
            · exact ⟨List.Sublist.refl _, hk⟩
        refine Inv.settle (n := none) ?_ (fun _ _ _ hn => by cases hn) fun t q hq' => (hq t q hq').choose_spec.2.2
        exact { h with
          queue := fun t q hq' hne => by
            obtain ⟨q', hold, hsub, -⟩ := hq t q hq'
            have hne' : q' ≠ [] := fun hnil => hne (List.sublist_nil.mp (hnil ▸ hsub))
            obtain ⟨s, st, hs, hst, hsub'⟩ := h.queue t q' hold hne'
            exact ⟨s, st, hs, hst, hsub.trans hsub'⟩
          waits := fun t q j hq' hj => by
            obtain ⟨q', hold, hsub, -⟩ := hq t q hq'
            exact h.waits t q' j hold (hsub.subset hj) }

/-! ## The relay, and what comes of it -/

theorem Inv.serve (h : w.Inv) (s : Nat) (ok : Bool) (n : Nat) : (w.serve s ok n).Inv := by
  rw [Peer.serve]
  cases hst : w.streams.get s with
  | none => exact h
  | some st =>
      dsimp only
      split
      · exact h
      · exact h.put hst (.served ‹_› ok n) rfl

theorem Inv.relayed (h : w.Inv) (s : Nat) (frm : String) (topic : τ) (data : Bytes) : (w.relayed s frm topic data).Inv := by
  rw [Peer.relayed]
  cases hst : w.streams.get s with
  | none => exact h
  | some st => exact h.put hst (.said_other fun _ => rfl) rfl

/-- An ACK of a topic is handled: the queues after it, where that of the topic has lost what was acknowledged. -/
theorem Inv.acked (h : w.Inv) {s : Nat} {st : Stream ρ τ} {t : τ} {n k : Nat} {fs : List (Down τ)}
    (hst : w.streams.get s = some st) (hdown : st.down = .ack t n k :: fs) {queues : OrdMap τ (List Nat)}
    (hqueue : ∀ t' q, queues.get t' = some q → q ≠ [] → t' ≠ t ∧ w.waitingAck.get t' = some q ∨
      t' = t ∧ w.stream = some s ∧ q.Sublist (Stream.outstanding { st with down := fs } t))
    (hwaits : ∀ t' q j, queues.get t' = some q → j ∈ q → ∃ q', w.waitingAck.get t' = some q' ∧ j ∈ q') :
    ({ w.put s { st with down := fs } with waitingAck := queues } : Peer ρ τ).Inv := by
  have hsub : ∀ t', (Stream.outstanding { st with down := fs } t').Sublist (st.outstanding t') := by
    intro t'
    rw [Stream.outstanding, Stream.outstanding, hdown, acks_cons, List.append_assoc]
    exact List.sublist_append_right ..
  have hother : ∀ t' ≠ t, Stream.outstanding { st with down := fs } t' = st.outstanding t' := by
    intro t' hne
    rw [Stream.outstanding, Stream.outstanding, hdown]
    simp [acks, hne.symm]
  have hlater : Later st { st with down := fs } :=
    ⟨hsub, fun _ hf => hf, fun _ hf => hf, fun hall f hf => hall f (hdown ▸ List.mem_cons_of_mem _ hf)⟩
  exact
    { toBase := { h.toBase.put hst hlater with }
      current := fun c hc => by
        obtain ⟨u, hu, hopen⟩ := h.current c hc
        by_cases hs : c = s
        · subst hs
          cases hu.symm.trans hst
          exact ⟨_, OrdMap.get_set_self .., hopen⟩
        · exact ⟨u, (OrdMap.get_set_ne _ _ hs).trans hu, hopen⟩
      live := h.live
      queue := fun t' q hq hne => by
        obtain ⟨hne', hold⟩ | ⟨rfl, hs, hsub'⟩ := hqueue t' q hq hne
        · obtain ⟨c, u, hc, hu, hsub'⟩ := h.queue t' q hold hne
          by_cases hs : c = s
          · subst hs
            cases hu.symm.trans hst
            exact ⟨c, _, hc, OrdMap.get_set_self .., hother t' hne' ▸ hsub'⟩
          · exact ⟨c, u, hc, (OrdMap.get_set_ne _ _ hs).trans hu, hsub'⟩
        · exact ⟨s, _, hs, OrdMap.get_set_self .., hsub'⟩
      waits := fun t' q j hq hj => by
        obtain ⟨q', hold, hj'⟩ := hwaits t' q j hq hj
        exact h.waits t' q' j hold hj' }

/-- An ACK comes: it is that of the first of the queue, or nobody waits. -/
theorem Inv.arrive_ack (h : w.Inv) {s : Nat} {st : Stream ρ τ} {t : τ} {n k : Nat} {fs : List (Down τ)}
    (hst : w.streams.get s = some st) (hdown : st.down = .ack t n k :: fs)
    (hmeets : k ∉ w.waiting t → w.waiting t = []) :
    ((w.put s { st with down := fs }).onFrame (.ack t n k)).Inv := by
  have hwait : (w.put s { st with down := fs }).waitingAck.get t = w.waitingAck.get t := rfl
  rw [onFrame, hwait]
  cases hq : w.waitingAck.get t with
  | none =>
      refine h.acked hst hdown (fun t' q hq' _ => .inl ⟨fun heq => ?_, hq'⟩) fun t' q j hq' hj => ⟨q, hq', hj⟩
      subst heq
      cases hq.symm.trans hq'
  | some q =>
      cases q with
      | nil =>
          refine h.acked hst hdown (fun t' q hq' _ => ?_) fun t' q j hq' hj => ⟨q, (OrdMap.get_delete_some hq').2, hj⟩
          exact .inl (OrdMap.get_delete_some hq')
      | cons k' q =>
          have hk : k ∈ k' :: q := by
            by_contra hk
            have hnone := hmeets (by rwa [waiting, hq])
            rw [waiting, hq] at hnone
            cases hnone
          have hout : st.outstanding t = k :: Stream.outstanding { st with down := fs } t := by
            rw [Stream.outstanding, hdown]
            simp [acks, Stream.outstanding]
          -- the publish waits on the live stream, so the ACK came on that stream, ahead of all the others
          obtain ⟨p, hp, htopic, hps⟩ := h.owed s st t k hst (hout ▸ List.mem_cons_self)
          obtain ⟨c, u, hc, hu, hsub⟩ := h.queue t (k' :: q) hq (List.cons_ne_nil _ _)
          have hlive := (h.waits_at hq hk hp).2.1
          rw [hps] at hlive
          cases hc.symm.trans hlive
          cases hu.symm.trans hst
          rw [hout] at hsub
          have hnd := h.once s st t hst
          rw [hout] at hnd
          obtain ⟨rfl, hrest⟩ : k' = k ∧ q.Sublist (Stream.outstanding { st with down := fs } t) := by
            cases hsub with
            | cons _ hsub => exact absurd (hsub.subset hk) (List.nodup_cons.mp hnd).1
            | cons_cons _ hsub => exact ⟨rfl, hsub⟩
          have hqueues : ∀ t' q', OrdMap.get (if q = [] then w.waitingAck.delete t else w.waitingAck.set t q) t' = some q' →
              t' ≠ t ∧ w.waitingAck.get t' = some q' ∨ t' = t ∧ q' = q := by
            intro t' q' hq'
            split at hq'
            · exact .inl (OrdMap.get_delete_some hq')
            · obtain heq | hold := OrdMap.get_set_some hq'
              · exact .inr heq
              · exact .inl hold
          refine Inv.settle (w := { w.put s { st with down := fs } with
            waitingAck := if q = [] then w.waitingAck.delete t else w.waitingAck.set t q }) ?_ ?_ ?_
          · refine h.acked hst hdown (fun t' q' hq' _ => ?_) fun t' q' j hq' hj => ?_
            · obtain hold | ⟨heq, rfl⟩ := hqueues t' q' hq'
              · exact .inl hold
              · exact .inr ⟨heq, hlive, hrest⟩
            · obtain ⟨-, hold⟩ | ⟨rfl, rfl⟩ := hqueues t' q' hq'
              · exact ⟨q', hold, hj⟩
              · exact ⟨_, hq, List.mem_cons_of_mem _ hj⟩
          · intro p' m hp' hm
            cases hp'.symm.trans hp
            cases hm
            refine ⟨_, by rw [hps]; exact OrdMap.get_set_self .., ?_⟩
            exact htopic ▸ h.said s st _ hst (hdown ▸ List.mem_cons_self)
          · intro t' q' hq' hk'
            obtain ⟨hne, hold⟩ | ⟨rfl, rfl⟩ := hqueues t' q' hq'
            · exact hne ((h.waits_at hold hk' hp).1.symm.trans htopic)
            · exact (List.nodup_cons.mp hnd).1 (hrest.subset hk')

theorem Inv.arrive (h : w.Inv) (s : Nat) (hmeets : w.AckMeets (.arrive s)) : (w.arrive s).Inv := by
  rw [Peer.arrive]
  cases hst : w.streams.get s with
  | none => exact h
  | some st =>
      dsimp only
      cases hdown : st.down with
      | nil => exact h
      | cons f fs =>
          dsimp only
          cases f with
          | ack t n k =>
              have hexpected : w.Expected (.ack t n k) := hmeets st hst _ (by rw [hdown]; rfl)
              exact h.arrive_ack hst hdown hexpected
          | deliver frm topic data => exact h.put hst (.handled hdown fun _ => rfl) rfl
          | refused topic k =>
              have hput := h.put hst (.handled hdown fun _ => rfl) rfl
              exact { hput with }
          | picked topic k =>
              have hput := h.put hst (.handled hdown fun _ => rfl) rfl
              rw [onFrame]
              split
              · exact { hput with }
              · exact hput

theorem Inv.act (h : w.Inv) {e : Event ρ τ} (hmeets : w.AckMeets e) : (w.act e).Inv := by
  cases e with
  | attach toRelayId => exact h.attach toRelayId
  | opened s => exact h.opened s
  | openFailed s => exact { h with }
  | detach => exact h.detach
  | subscribe topic => exact h.subscribe topic
  | unsubscribe topic => exact h.unsubscribe topic
  | publish topic data => exact h.publish topic data
  | timeout k => exact h.timeout k
  | bye s => exact h.bye s
  | serve s ok n => exact h.serve s ok n
  | relayed s frm topic data => exact h.relayed s frm topic data
  | arrive s => exact h.arrive s hmeets

/-- In a run where no ACK is handled whose publish has stopped waiting while another of its topic waits, the reach that
a publish comes to is what the relay said of its own PUSH, on the stream it was sent on. -/
theorem settled_by_own_ack (h : Reach act AckMeets start w) {k n : Nat} {p : Publish τ}
    (hp : w.publishes.get k = some p) (hr : p.reach = some (some n)) :
    ∃ st data, w.streams.get p.stream = some st ∧ .push p.topic data k ∈ st.sent ∧ .ack p.topic n k ∈ st.said := by
  have hinv : w.Inv := h.invariant .start fun _ _ hs hok => hs.act hok
  obtain ⟨st, data, hst, hsent⟩ := hinv.sent k p hp
  obtain ⟨st', hst', hsaid⟩ := hinv.truth k p n hp hr
  cases hst.symm.trans hst'
  exact ⟨st, data, hst, hsent, hsaid⟩

/-- Two publishes on one topic, each acknowledged in time. -/
def sampleRun : List (Event String Nat) :=
  [.attach "relay", .opened 0, .subscribe 7, .publish 7 [1], .publish 7 [2], .serve 0 true 0, .serve 0 true 4,
    .serve 0 true 0, .arrive 0, .arrive 0, .arrive 0]

theorem sample_settled : ∃ st data, (sampleRun.foldl act start).streams.get 0 = some st ∧
    .push 7 data 2 ∈ st.sent ∧ .ack 7 4 2 ∈ st.said :=
  settled_by_own_ack (p := ⟨7, 0, some (some 4)⟩) (Admits.reach .start (by decide : Admits act AckMeets start sampleRun))
    (by decide) rfl

/-- The first publish is given up after its five seconds, and acknowledged when the second one waits. -/
def lateRun : List (Event String Nat) :=
  [.attach "relay", .opened 0, .publish 7 [1], .timeout 1, .publish 7 [2], .serve 0 true 4, .arrive 0]

/-- The second publish comes to the reach of the first; the relay has not even read its PUSH. -/
theorem settled_by_another : Reach act (fun _ _ => True) start (lateRun.foldl act start) ∧
    (lateRun.foldl act start).publishes.get 2 = some ⟨7, 0, some (some 4)⟩ ∧
    ∀ st ∈ (lateRun.foldl act start).streams.get 0, st.up = [.push 7 [2] 2] ∧ st.said = [.ack 7 4 1] :=
  ⟨Admits.reach .start (.of_forall (fun _ _ => trivial) _ _), by decide, by decide⟩

end Peer

end EncedoChat.Light
