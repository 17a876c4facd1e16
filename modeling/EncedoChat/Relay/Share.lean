import Mathlib.Data.List.Perm.Subperm
import EncedoChat.Lib.Run
import EncedoChat.Relay.Carried

/-!
# What one peer makes a relay carry

A topic is carried because of the peers whose PICK or subscription was granted since it was joined. A slot is given back
at once, the topic when the sweep finds it idle; in between the quota does not count it.
-/

namespace EncedoChat.Relay

variable {π τ : Type} [DecidableEq π] [DecidableEq τ]

/-- The peer whose request is granted, and the topic. -/
def Node.grants (C : Config π τ) (w : Node π τ) : Event π τ → Option (π × τ)
  | .pick peer _ topic _ =>
    if (w.quota.claim C.perPeer peer topic).1 = false ∨ topic ∉ w.topics ∧ C.maxTopics ≤ w.topics.length then none
    else some (peer, topic)
  | .subscription peer topic true _ =>
    if shouldJoin C peer = true ∧ (w.granted C peer topic).1 = true ∧ (topic ∈ w.topics ∨ w.topics.length < C.maxTopics)
    then some (peer, topic)
    else none
  | _ => none

/-- A node, and because of whom it carries each of its topics. -/
structure Watched (π τ : Type) where
  node : Node π τ
  because : τ → List π

namespace Watched

def start : Watched π τ := ⟨.start, fun _ => []⟩

def act (C : Config π τ) (w : Watched π τ) (e : Event π τ) : Watched π τ :=
  let n := (w.node.act C e).1
  ⟨n, fun t =>
    if t ∈ n.topics then
      match w.node.grants C e with
      | some (p, t') => if t = t' then w.because t ++ [p] else w.because t
      | none => w.because t
    else []⟩

/-- The topic is carried because of that peer and of nobody else. -/
def alone (C : Config π τ) (w : Watched π τ) (p : π) (t : τ) : Bool :=
  decide (t ≠ C.loadTopic) && decide (p ∈ w.because t) && (w.because t).all (fun q => decide (q = p))

/-- The topics carried because of one peer alone. -/
def share (C : Config π τ) (w : Watched π τ) (p : π) : List τ := w.node.topics.filter (w.alone C p)

/-- Those it has given the slot back for. -/
def leftovers (C : Config π τ) (w : Watched π τ) (p : π) : List τ :=
  (w.share C p).filter (fun t => !decide (t ∈ w.node.quota.of p))

/-- Those it holds a slot for. -/
def kept (C : Config π τ) (w : Watched π τ) (p : π) : List τ :=
  (w.share C p).filter (fun t => decide (t ∈ w.node.quota.of p))

def Bounded (C : Config π τ) (w : Watched π τ) : Prop := ∀ p, p ∉ C.siblings → (w.share C p).length ≤ C.perPeer

/-- A peer that is granted a topic the relay does not carry has left none of its topics behind, or few enough. -/
def Settled (C : Config π τ) (w : Watched π τ) (e : Event π τ) : Prop :=
  ∀ p t, w.node.grants C e = some (p, t) → t ∉ w.node.topics → t ≠ C.loadTopic → p ∉ C.siblings →
    w.leftovers C p = [] ∨ (w.leftovers C p).length + (w.kept C p).length < C.perPeer

end Watched

/-! ## What a step does -/

namespace Node

variable {C : Config π τ} {w : Node π τ} {e : Event π τ} {p : π} {t : τ}

/-- A granted topic is carried from then on, and nothing else changes. -/
theorem topics_of_grants (h : w.grants C e = some (p, t)) :
    (w.act C e).1.topics = if t ∈ w.topics then w.topics else w.topics ++ [t] := by
  cases e with
  | pick peer sink topic now =>
      rw [grants] at h
      split at h
      · cases h
      · rename_i hgranted
        cases h
        rw [act, pick, if_neg hgranted]
        split
        · rfl
        · rfl
  | subscription peer topic subscribe now =>
      cases subscribe with
      | false => cases h
      | true =>
          rw [grants] at h
          split at h
          · rename_i hok
            cases h
            obtain ⟨hjoin, hgranted, hroom⟩ := hok
            rw [act, subscription, if_pos rfl, if_pos hjoin]
            simp only [hgranted, if_true]
            by_cases hmem : t ∈ w.topics
            · rw [if_neg (fun h => h.1 hmem), if_pos hmem]
            · rw [if_pos ⟨hmem, hroom.resolve_left hmem⟩, if_neg hmem]
              rfl
          · cases h
  | _ => cases h

/-- The quota has admitted what is granted. -/
theorem claimed_of_grants (h : w.grants C e = some (p, t)) (hp : p ∉ C.siblings) :
    t ∈ w.quota.of p ∨ (w.quota.of p).length < C.perPeer := by
  apply (w.quota.claim_iff C.perPeer p t).mp
  cases e with
  | pick peer sink topic now =>
      rw [grants] at h
      split at h
      · cases h
      · rename_i hgranted
        cases h
        exact Bool.eq_true_of_not_eq_false fun hf => hgranted (.inl hf)
  | subscription peer topic subscribe now =>
      cases subscribe with
      | false => cases h
      | true =>
          rw [grants] at h
          split at h
          · rename_i hok
            cases h
            have hgranted := hok.2.1
            rw [granted, if_neg hp] at hgranted
            exact hgranted
          · cases h
  | _ => cases h

omit [DecidableEq π] in
theorem sweep_topics (C : Config π τ) (now : Time) (ts : List τ) (w : Node π τ) :
    ∀ t ∈ (ts.foldl (sweepTopic C now) w).topics, t ∈ w.topics := by
  induction ts generalizing w with
  | nil => exact fun _ h => h
  | cons t ts ih =>
      intro t' ht'
      have hone : ∀ t' ∈ (sweepTopic C now w t).topics, t' ∈ w.topics := by
        rw [sweepTopic]
        split
        · exact fun _ h => (List.mem_filter.mp h).1
        · exact fun _ h => h
      exact hone t' (ih _ t' ht')

/-- Where nothing is granted no topic comes in but the load topic. -/
theorem topics_of_none (h : w.grants C e = none) : ∀ t ∈ (w.act C e).1.topics, t ∈ w.topics ∨ t = C.loadTopic := by
  intro t ht
  cases e with
  | pick peer sink topic now =>
      rw [grants] at h
      split at h
      · rename_i hrefused
        rw [act, pick, if_pos hrefused] at ht
        exact .inl ht
      · cases h
  | subscription peer topic subscribe now =>
      cases subscribe with
      | false => exact .inl ht
      | true =>
          rw [grants] at h
          split at h
          · cases h
          · rename_i hno
            rw [act, subscription, if_pos rfl] at ht
            cases hjoin : shouldJoin C peer with
            | false =>
                rw [hjoin] at ht
                exact .inl ht
            | true =>
                rw [hjoin] at ht
                simp only [if_true] at ht
                split at ht
                · rename_i hgranted
                  rw [if_neg (fun hnew => hno ⟨hjoin, hgranted, .inr hnew.2⟩)] at ht
                  exact .inl ht
                · exact .inl ht
  | push peer sink topic data =>
      rw [act, push] at ht
      split at ht
      · exact .inl ht
      · exact .inl ht
  | pushed k recipients now =>
      rw [act, pushed] at ht
      split at ht
      · exact .inl ht
      · exact .inl ht
  | message author topic data now =>
      rw [act, message] at ht
      split at ht
      · exact .inl ht
      · exact .inl ht
  | sweep now => exact .inl (sweep_topics C now w.topics w t ht)
  | setUpLoad =>
      rw [act, setUpLoad] at ht
      split at ht
      · exact .inl ht
      · dsimp only at ht
        split at ht
        · exact .inl ht
        · exact (List.mem_append.mp ht).imp_right List.mem_singleton.mp
  | drop peer sink topic => exact .inl ht
  | bye peer sink => exact .inl ht
  | disconnect peer => exact .inl ht
  | announce mine now => exact .inl ht

omit [DecidableEq π] in
theorem fair_sweep (C : Config π τ) (now : Time) (ts : List τ) (w : Node π τ) :
    (ts.foldl (sweepTopic C now) w).quota = w.quota := by
  induction ts generalizing w with
  | nil => rfl
  | cons t ts ih =>
      rw [List.foldl_cons, ih, sweepTopic]
      split
      · rfl
      · rfl

/-- No peer holds more slots than its share. -/
theorem fair_act (h : w.quota.Fair C.perPeer) (e : Event π τ) : (w.act C e).1.quota.Fair C.perPeer := by
  cases e with
  | pick peer sink topic now =>
      rw [act, pick]
      split
      · exact (h.claim peer topic).release peer topic
      · exact h.claim peer topic
  | drop peer sink topic =>
      rw [act, drop]
      dsimp only
      split
      · exact h.release peer topic
      · exact h
  | push peer sink topic data =>
      rw [act, push]
      split
      · exact h
      · exact h
  | pushed k recipients now =>
      rw [act, pushed]
      split
      · exact h
      · exact h
  | bye peer sink =>
      have hloop : ∀ (ts : List τ) (q : Quota π τ), q.Fair C.perPeer →
          (ts.foldl (fun q t => q.release peer t) q).Fair C.perPeer := by
        intro ts
        induction ts with
        | nil => exact fun _ hq => hq
        | cons t ts ih => exact fun q hq => ih _ (hq.release peer t)
      exact hloop _ _ h
  | subscription peer topic subscribe now =>
      have hgranted : (w.granted C peer topic).2.Fair C.perPeer := by
        rw [granted]
        split
        · exact h
        · exact h.claim peer topic
      rw [act, subscription]
      cases subscribe with
      | false => exact h.release peer topic
      | true =>
          rw [if_pos rfl]
          cases shouldJoin C peer with
          | false => exact h
          | true =>
              simp only [if_true]
              split
              · split
                · exact hgranted
                · exact hgranted
              · exact hgranted
  | message author topic data now =>
      rw [act, message]
      split
      · exact h
      · exact h
  | sweep now =>
      rw [act, sweep, fair_sweep]
      exact h
  | disconnect peer => exact h.forget peer
  | setUpLoad =>
      rw [act, setUpLoad]
      split
      · exact h
      · exact h
  | announce mine now => exact h

end Node

/-! ## The shares -/

namespace Watched

variable {C : Config π τ} {w : Watched π τ} {e : Event π τ} {p : π} {t : τ}

/-- Every topic but the load topic is carried because of somebody. -/
structure Inv (C : Config π τ) (w : Watched π τ) : Prop where
  carried : Carried C w.node
  fair : w.node.quota.Fair C.perPeer
  asked : ∀ t ∈ w.node.topics, t ≠ C.loadTopic → w.because t ≠ []
  idle : ∀ t, t ∉ w.node.topics → w.because t = []

theorem Inv.start : Inv C (start : Watched π τ) :=
  ⟨.start, .empty _, (fun _ h => nomatch h), fun _ _ => rfl⟩

theorem alone_iff :
    w.alone C p t = true ↔ t ≠ C.loadTopic ∧ p ∈ w.because t ∧ ∀ q ∈ w.because t, q = p := by
  simp [alone, and_assoc]

theorem because_act (ht : t ∈ (w.node.act C e).1.topics) :
    (w.act C e).because t = w.because t ∨ ∃ q, w.node.grants C e = some (q, t) ∧
      (w.act C e).because t = w.because t ++ [q] := by
  simp only [act, if_pos ht]
  cases hg : w.node.grants C e with
  | none => exact .inl rfl
  | some r =>
      obtain ⟨q, t'⟩ := r
      by_cases heq : t = t'
      · subst heq
        exact .inr ⟨q, rfl, if_pos rfl⟩
      · exact .inl (if_neg heq)

theorem Inv.act (I : Inv C w) (e : Event π τ) : Inv C (w.act C e) := by
  refine ⟨I.carried.act e, Node.fair_act I.fair e, ?_, ?_⟩
  · intro t ht hload
    have hold : t ∈ w.node.topics → (w.act C e).because t ≠ [] := by
      intro hmem
      obtain hb | ⟨q, -, hb⟩ := because_act ht
      · exact hb ▸ I.asked t hmem hload
      · rw [hb]
        simp
    cases hg : w.node.grants C e with
    | none => exact hold ((Node.topics_of_none hg t ht).resolve_right hload)
    | some r =>
        obtain ⟨q, t'⟩ := r
        have htopics : t ∈ if t' ∈ w.node.topics then w.node.topics else w.node.topics ++ [t'] :=
          Node.topics_of_grants hg ▸ ht
        split at htopics
        · exact hold htopics
        · rcases List.mem_append.mp htopics with hmem | hmem
          · exact hold hmem
          · obtain rfl := List.mem_singleton.mp hmem
            have hb : (w.act C e).because t = w.because t ++ [q] := by
              simp only [Watched.act, hg, if_true]
              exact if_pos ht
            rw [hb]
            simp
  · intro t ht
    exact if_neg ht

/-- A topic that was carried and is now carried because of one peer alone was so before. -/
theorem Inv.alone_before (I : Inv C w) (hmem : t ∈ w.node.topics) (ht : t ∈ (w.node.act C e).1.topics)
    (h : (w.act C e).alone C p t = true) : w.alone C p t = true := by
  obtain ⟨hload, -, hall⟩ := alone_iff.mp h
  have hold : ∀ q ∈ w.because t, q = p := by
    intro q hq
    apply hall
    obtain hb | ⟨_, -, hb⟩ := because_act ht
    · exact hb ▸ hq
    · exact hb ▸ List.mem_append_left _ hq
  obtain ⟨q, hq⟩ := List.exists_mem_of_ne_nil _ (I.asked t hmem hload)
  exact alone_iff.mpr ⟨hload, hold q hq ▸ hq, hold⟩

/-- Where no new topic is granted, no share grows. -/
theorem Inv.share_le (I : Inv C w) (h : ∀ q t, w.node.grants C e = some (q, t) → t ∈ w.node.topics) (p : π) :
    ((w.act C e).share C p).length ≤ (w.share C p).length := by
  have hnodup : ((w.act C e).share C p).Nodup := (I.act e).carried.nodup.filter _
  refine (hnodup.subperm ?_).length_le
  intro t ht
  obtain ⟨htopics, halone⟩ := List.mem_filter.mp ht
  have hmem : t ∈ w.node.topics := by
    cases hg : w.node.grants C e with
    | none => exact (Node.topics_of_none hg t htopics).resolve_right (alone_iff.mp halone).1
    | some r =>
        have hnode : (w.node.act C e).1.topics = w.node.topics :=
          (Node.topics_of_grants hg).trans (if_pos (h _ _ hg))
        exact hnode ▸ htopics
  exact List.mem_filter.mpr ⟨hmem, I.alone_before hmem htopics halone⟩

/-- A new topic goes to the share of the peer it is granted to. -/
theorem Inv.share_new (I : Inv C w) {q : π} (hg : w.node.grants C e = some (q, t)) (hnew : t ∉ w.node.topics) (p : π) :
    (w.act C e).share C p = w.share C p ++ if q = p ∧ t ≠ C.loadTopic then [t] else [] := by
  have htopics : (w.node.act C e).1.topics = w.node.topics ++ [t] :=
    (Node.topics_of_grants hg).trans (if_neg hnew)
  have hbecause : ∀ t' ∈ w.node.topics, (w.act C e).because t' = w.because t' := by
    intro t' ht'
    have hne : t' ≠ t := fun he => hnew (he ▸ ht')
    simp only [Watched.act, htopics, List.mem_append, ht', true_or, if_true, hg, if_neg hne]
  have hfirst : (w.act C e).because t = [q] := by
    simp only [Watched.act, htopics, List.mem_append, List.mem_singleton, or_true, if_true, hg, I.idle t hnew,
      List.nil_append]
  have hshare : (w.act C e).share C p = (w.node.topics ++ [t]).filter ((w.act C e).alone C p) :=
    congrArg (List.filter _) htopics
  rw [hshare, List.filter_append, share]
  congr 1
  · apply List.filter_congr
    intro t' ht'
    rw [alone, alone, hbecause t' ht']
  · rw [List.filter_singleton]
    have halone : (w.act C e).alone C p t = decide (q = p ∧ t ≠ C.loadTopic) := by
      rw [Bool.eq_iff_iff, alone_iff, hfirst, decide_eq_true_iff]
      simp only [List.mem_singleton, forall_eq]
      constructor
      · rintro ⟨hload, -, hq⟩
        exact ⟨hq, hload⟩
      · rintro ⟨rfl, hload⟩
        exact ⟨hload, rfl, rfl⟩
    rw [halone, Bool.cond_decide]

theorem share_length (w : Watched π τ) (p : π) :
    (w.share C p).length = (w.leftovers C p).length + (w.kept C p).length := by
  rw [leftovers, kept, Nat.add_comm]
  exact List.length_eq_length_filter_add _

/-- With nothing left behind, the quota itself leaves room for what it has just admitted. -/
theorem Inv.room (I : Inv C w) (hg : w.node.grants C e = some (p, t)) (hnew : t ∉ w.node.topics) (hp : p ∉ C.siblings)
    (hleft : w.leftovers C p = []) : (w.share C p).length < C.perPeer := by
  have hnodup : (w.share C p).Nodup := I.carried.nodup.filter _
  have hslots : ∀ t' ∈ w.share C p, t' ∈ w.node.quota.of p := by
    intro t' ht'
    by_contra hno
    have hmem : t' ∈ w.leftovers C p := List.mem_filter.mpr ⟨ht', by simp [hno]⟩
    rw [hleft] at hmem
    cases hmem
  obtain hheld | hfree := Node.claimed_of_grants hg hp
  · -- its slot is one more than those of the share
    have hcons : (t :: w.share C p).Nodup :=
      List.nodup_cons.mpr ⟨fun ht => hnew (List.mem_filter.mp ht).1, hnodup⟩
    have hsub : t :: w.share C p ⊆ w.node.quota.of p := List.cons_subset.mpr ⟨hheld, hslots⟩
    exact Nat.lt_of_lt_of_le (hcons.subperm hsub).length_le (I.fair.few p)
  · exact Nat.lt_of_le_of_lt (hnodup.subperm hslots).length_le hfree

/-- One step keeps every share within the bound if and only if it is settled. -/
theorem Inv.bounded_act (I : Inv C w) (B : w.Bounded C) (e : Event π τ) : (w.act C e).Bounded C ↔ w.Settled C e := by
  by_cases hnew : ∃ q t, w.node.grants C e = some (q, t) ∧ t ∉ w.node.topics
  · obtain ⟨q, t, hg, hnew⟩ := hnew
    constructor
    · intro B' p' t' hg' _ hload hp
      cases hg.symm.trans hg'
      have hbound := B' q hp
      rw [I.share_new hg hnew, if_pos ⟨rfl, hload⟩, List.length_append, List.length_singleton, share_length] at hbound
      exact .inr hbound
    · intro S p hp
      rw [I.share_new hg hnew, List.length_append]
      split
      · rename_i hq
        obtain ⟨rfl, hload⟩ := hq
        have hroom : (w.share C q).length < C.perPeer := by
          obtain hleft | hfew := S q t hg hnew hload hp
          · exact I.room hg hnew hp hleft
          · exact (share_length w q).symm ▸ hfew
        exact hroom
      · exact B p hp
  · constructor
    · intro _ q t hg hnot
      exact absurd ⟨q, t, hg, hnot⟩ hnew
    · intro _ p hp
      refine Nat.le_trans (I.share_le ?_ p) (B p hp)
      intro q t hg
      by_contra hnot
      exact hnew ⟨q, t, hg, hnot⟩

theorem bounded_start : (start : Watched π τ).Bounded C := fun _ _ => Nat.zero_le _

/-- In every state of a run every share is within the bound, if and only if each step is settled. -/
theorem share_bounded (C : Config π τ) (evs : List (Event π τ)) :
    (∀ pre, pre <+: evs → (pre.foldl (act C) start).Bounded C) ↔ Admits (act C) (Settled C) start evs := by
  have hrun : ∀ (evs : List (Event π τ)) (w : Watched π τ), Inv C w → w.Bounded C →
      ((∀ pre, pre <+: evs → (pre.foldl (act C) w).Bounded C) ↔ Admits (act C) (Settled C) w evs) := by
    intro evs
    induction evs with
    | nil =>
        intro w _ B
        refine ⟨fun _ => trivial, fun _ pre hpre => ?_⟩
        rw [List.prefix_nil.mp hpre]
        exact B
    | cons e evs ih =>
        intro w I B
        constructor
        · intro h
          have hone : (w.act C e).Bounded C := h [e] ⟨evs, rfl⟩
          refine ⟨(I.bounded_act B e).mp hone, (ih _ (I.act e) hone).mp ?_⟩
          intro pre hpre
          exact h (e :: pre) (List.cons_prefix_cons.mpr ⟨rfl, hpre⟩)
        · rintro ⟨hsettled, hlater⟩ pre hpre
          have hone := (I.bounded_act B e).mpr hsettled
          cases pre with
          | nil => exact B
          | cons e' pre =>
              obtain ⟨he, htail⟩ := List.cons_prefix_cons.mp hpre
              subst he
              exact (ih _ (I.act e') hone).mpr hlater pre htail
  exact hrun evs start .start bounded_start

/-- A quota of two topics a peer. -/
def small : Config Nat Nat :=
  { maxTopics := 250, perPeer := 2, idleTtl := 120000, localOnly := false, siblings := [], self := 0, loadTopic := 0,
    parse := fun _ => none }

/-- One peer subscribes to two topics, gives both back and subscribes to a third: the relay carries all three. -/
theorem share_exceeded :
    ¬ ∀ evs : List (Event Nat Nat), (∀ e ∈ evs, ∃ t on, e = Event.subscription 1 t on 0) → (evs.foldl (act small) start).Bounded small := by
  intro h
  have hbound := h [.subscription 1 1 true 0, .subscription 1 2 true 0, .subscription 1 1 false 0,
    .subscription 1 3 true 0] (by simp) 1 (by decide)
  revert hbound
  decide

end Watched

end EncedoChat.Relay
