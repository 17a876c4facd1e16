import Mathlib.Data.List.Induction
import EncedoChat.Relay.Tables

/-!
# The registry of picks

The operations of `makePicks` of `pick.mjs`, with a stream or for whichever stream it is, over any sequence of them. What
is registered for a peer and a topic is the latest pick that was not taken back since.
-/

namespace EncedoChat.Relay

variable {π τ : Type} [DecidableEq π] [DecidableEq τ]

inductive PickOp (π τ : Type) where
  | add (peer : π) (topic : τ) (sink : Sink)
  | drop (peer : π) (topic : τ) (sink : Option Sink)
  | forget (peer : π) (sink : Option Sink)

namespace PickOp

/-- The operation takes back what this stream of the peer picked of the topic. -/
def Removes (p : π) (t : τ) (s : Sink) : PickOp π τ → Prop
  | add _ _ _ => False
  | drop peer topic sink => peer = p ∧ topic = t ∧ (sink = none ∨ sink = some s)
  | forget peer sink => peer = p ∧ (sink = none ∨ sink = some s)

def Adds (p : π) (t : τ) : PickOp π τ → Prop
  | add peer topic _ => peer = p ∧ topic = t
  | _ => False

/-- The operation names this stream. -/
def Names (p : π) (s : Sink) : PickOp π τ → Prop
  | add _ _ _ => False
  | drop peer _ sink => peer = p ∧ sink = some s
  | forget peer sink => peer = p ∧ sink = some s

/-- The stream of the peer's latest pick of the topic, not taken back since. -/
def Stands (ops : List (PickOp π τ)) (p : π) (t : τ) (s : Sink) : Prop :=
  ∃ pre post, ops = pre ++ .add p t s :: post ∧ ∀ o ∈ post, ¬o.Adds p t ∧ ¬o.Removes p t s

end PickOp

namespace Picks

/-- `drop`, where the stream need not be given. -/
def dropOf (k : Picks π τ) (p : π) (t : τ) (sink : Option Sink) : Bool × Picks π τ :=
  let m := k.sinks t
  if m.has p = false ∨ sink ≠ none ∧ m.get p ≠ sink then (false, k)
  else
    let m := m.delete p
    let set := (k.topicsOf p).filter (fun t' => t' ≠ t)
    (true, ⟨keep k.byTopic t m (m.size = 0), keep k.byPeer p set set.isEmpty⟩)

/-- `forget`, where the stream need not be given. -/
def forgetOf (k : Picks π τ) (p : π) (sink : Option Sink) : List τ × Picks π τ :=
  (k.topicsOf p).foldl (fun r t =>
    let d := r.2.dropOf p t sink
    (if d.1 then r.1 ++ [t] else r.1, d.2)) ([], k)

def act (k : Picks π τ) : PickOp π τ → Picks π τ
  | .add p t sink => k.add p t sink
  | .drop p t sink => (k.dropOf p t sink).2
  | .forget p sink => (k.forgetOf p sink).2

def run (ops : List (PickOp π τ)) : Picks π τ := ops.foldl act empty

/-- The stream registered for a peer and a topic. -/
def sinkOf (k : Picks π τ) (p : π) (t : τ) : Option Sink := (k.sinks t).get p

variable {k : Picks π τ}

/-- Whichever stream it is, it is the one that is registered. -/
theorem dropOf_eq (k : Picks π τ) (p : π) (t : τ) (sink : Option Sink) : k.dropOf p t sink =
    match k.sinkOf p t with
    | none => (false, k)
    | some s => if sink = none ∨ sink = some s then k.drop p t s else (false, k) := by
  rw [dropOf]
  cases hget : k.sinkOf p t with
  | none =>
      have hhas : (k.sinks t).has p = false := by rw [OrdMap.has, ← sinkOf, hget]; rfl
      exact if_pos (.inl hhas)
  | some s =>
      have hsome : (k.sinks t).get p = some s := hget
      have hhas : (k.sinks t).has p = true := OrdMap.has_of_get hsome
      dsimp only
      by_cases hsink : sink = none ∨ sink = some s
      · rw [if_pos hsink, if_neg, drop, if_pos hsome]
        rw [hhas, hsome]
        rintro (h | ⟨hne, hother⟩)
        · cases h
        · exact hsink.elim hne fun h => hother h.symm
      · rw [if_neg hsink, if_pos]
        rw [not_or] at hsink
        exact .inr ⟨hsink.1, fun h => hsink.2 (h.symm.trans hsome)⟩

/-- The streams of the node always say which they are. -/
theorem dropOf_some (k : Picks π τ) (p : π) (t : τ) (s : Sink) : k.dropOf p t (some s) = k.drop p t s := by
  rw [dropOf_eq, drop]
  cases hget : k.sinkOf p t with
  | none =>
      have hnone : (k.sinks t).get p = none := hget
      simp [hnone]
  | some s' =>
      have hsome : (k.sinks t).get p = some s' := hget
      by_cases heq : s' = s
      · subst heq
        simp [hsome, drop]
      · have hne : ¬(some s : Option Sink) = some s' := fun h => heq (Option.some.inj h).symm
        simp [hsome, heq, hne, Ne.symm heq]

theorem forgetOf_some (k : Picks π τ) (p : π) (s : Sink) : k.forgetOf p (some s) = k.forget p s := by
  simp only [forgetOf, forget, dropOf_some]

/-! ## What an operation changes -/

theorem sinkOf_add (k : Picks π τ) (p : π) (t : τ) (s : Sink) (p' : π) (t' : τ) :
    (k.add p t s).sinkOf p' t' = if p' = p ∧ t' = t then some s else k.sinkOf p' t' := by
  rw [sinkOf, sinks_add]
  by_cases ht : t' = t
  · rw [if_pos ht, OrdMap.get_set, sinkOf, ht]
    simp only [and_true]
  · rw [if_neg ht, if_neg (fun h => ht h.2), sinkOf]

theorem sinkOf_drop (k : Picks π τ) (p : π) (t : τ) (s : Sink) (p' : π) (t' : τ) :
    (k.drop p t s).2.sinkOf p' t' = if p' = p ∧ t' = t ∧ k.sinkOf p t = some s then none else k.sinkOf p' t' := by
  rw [sinkOf, sinks_drop]
  by_cases h : t' = t ∧ (k.sinks t).get p = some s
  · rw [if_pos h, OrdMap.get_delete, sinkOf, h.1]
    by_cases hp : p' = p
    · rw [if_pos hp, if_pos ⟨hp, rfl, h.2⟩]
    · rw [if_neg hp, if_neg (fun hc => hp hc.1)]
      rfl
  · rw [if_neg h, if_neg (fun hc => h hc.2), sinkOf]

theorem sinkOf_dropOf (k : Picks π τ) (p : π) (t : τ) (sink : Option Sink) (p' : π) (t' : τ) :
    (k.dropOf p t sink).2.sinkOf p' t' =
      if p' = p ∧ t' = t ∧ (sink = none ∨ sink = k.sinkOf p t) then none else k.sinkOf p' t' := by
  rw [dropOf_eq]
  cases hget : k.sinkOf p t with
  | none =>
      dsimp only
      split
      · rename_i h
        rw [h.1, h.2.1, hget]
      · rfl
  | some s =>
      dsimp only
      by_cases hsink : sink = none ∨ sink = some s
      · rw [if_pos hsink, sinkOf_drop, hget]
        simp only [hsink, and_true]
      · rw [if_neg hsink]
        simp only [hsink, and_false, ↓reduceIte]

theorem mem_topicsOf_add (k : Picks π τ) (p : π) (t : τ) (s : Sink) (p' : π) (t' : τ) :
    t' ∈ (k.add p t s).topicsOf p' ↔ p' = p ∧ t' = t ∨ t' ∈ k.topicsOf p' := by
  rw [add, topicsOf, OrdMap.get_set]
  by_cases hp : p' = p
  · subst hp
    rw [if_pos rfl, Option.getD_some]
    split
    · rename_i hin
      exact ⟨.inr, fun h => h.elim (fun h => h.2 ▸ hin) id⟩
    · simp [or_comm]
  · simp [hp, topicsOf]

theorem topicsOf_drop (k : Picks π τ) (p : π) (t : τ) (s : Sink) (p' : π) :
    (k.drop p t s).2.topicsOf p' =
      if p' = p ∧ k.sinkOf p t = some s then (k.topicsOf p).filter (fun t' => t' ≠ t) else k.topicsOf p' := by
  rw [drop]
  by_cases hsink : (k.sinks t).get p = some s
  · rw [if_pos hsink, topicsOf, get_keep]
    by_cases hp : p' = p
    · have hboth : p' = p ∧ k.sinkOf p t = some s := ⟨hp, hsink⟩
      rw [if_pos hp, if_pos hboth]
      split
      · rename_i hempty
        exact (List.isEmpty_iff.mp hempty).symm
      · rfl
    · rw [if_neg hp, if_neg (fun h => hp h.1), topicsOf]
  · rw [if_neg hsink, if_neg (fun h => hsink h.2)]

/-! ## The two indexes -/

/-- The two indexes say the same, and neither keeps an entry with nothing in it. -/
structure Inverse (k : Picks π τ) : Prop where
  same : ∀ p t, t ∈ k.topicsOf p ↔ ∃ s, k.sinkOf p t = some s
  topics : ∀ t m, k.byTopic.get t = some m → 0 < m.size
  peers : ∀ p set, k.byPeer.get p = some set → set ≠ [] ∧ set.Nodup

theorem Inverse.nodup (h : k.Inverse) (p : π) : (k.topicsOf p).Nodup := by
  rw [topicsOf]
  cases hget : k.byPeer.get p with
  | none => exact .nil
  | some set => exact (h.peers p set hget).2

theorem Inverse.empty : (empty : Picks π τ).Inverse := by
  refine ⟨fun p t => ?_, fun t m h => ?_, fun p set h => ?_⟩
  · simp [topicsOf, sinkOf, sinks, Picks.empty]
  · cases h
  · cases h

theorem Inverse.add (h : k.Inverse) (p : π) (t : τ) (s : Sink) : (k.add p t s).Inverse := by
  refine ⟨fun p' t' => ?_, fun t' m hm => ?_, fun p' set hset => ?_⟩
  · rw [mem_topicsOf_add, sinkOf_add, h.same]
    split
    · rename_i heq
      simp [heq]
    · rename_i hne
      simp [hne]
  · rw [Picks.add, OrdMap.get_set] at hm
    split at hm
    · cases hm
      exact List.length_pos_of_mem (OrdMap.get_eq_some.mp (OrdMap.get_set_self ..))
    · exact h.topics t' m hm
  · rw [Picks.add, OrdMap.get_set] at hset
    split at hset
    · cases hset
      split
      · rename_i hin
        exact ⟨List.ne_nil_of_mem hin, h.nodup p⟩
      · rename_i hout
        refine ⟨by simp, List.nodup_append.mpr ⟨h.nodup p, List.nodup_singleton t, fun a ha b hb hab => ?_⟩⟩
        exact hout (List.mem_singleton.mp hb ▸ hab ▸ ha)
    · exact h.peers p' set hset

theorem Inverse.drop (h : k.Inverse) (p : π) (t : τ) (s : Sink) : (k.drop p t s).2.Inverse := by
  by_cases hsink : (k.sinks t).get p = some s
  · refine ⟨fun p' t' => ?_, fun t' m hm => ?_, fun p' set hset => ?_⟩
    · rw [topicsOf_drop, sinkOf_drop]
      by_cases hp : p' = p
      · subst hp
        rw [if_pos ⟨rfl, hsink⟩, List.mem_filter, h.same]
        have hs : k.sinkOf p' t = some s := hsink
        by_cases ht : t' = t <;> simp [ht, hs]
      · rw [if_neg (fun hc => hp hc.1), if_neg (fun hc => hp hc.1), h.same]
    · rw [Picks.drop, if_pos hsink, get_keep] at hm
      split at hm
      · split at hm
        · cases hm
        · rename_i hsize
          cases hm
          exact Nat.pos_of_ne_zero fun hzero => hsize (decide_eq_true hzero)
      · exact h.topics t' m hm
    · rw [Picks.drop, if_pos hsink, get_keep] at hset
      split at hset
      · split at hset
        · cases hset
        · rename_i hempty
          cases hset
          exact ⟨fun hnil => hempty (List.isEmpty_iff.mpr hnil), (h.nodup p).filter _⟩
      · exact h.peers p' set hset
  · rw [Picks.drop, if_neg hsink]
    exact h

theorem Inverse.dropOf (h : k.Inverse) (p : π) (t : τ) (sink : Option Sink) : (k.dropOf p t sink).2.Inverse := by
  rw [dropOf_eq]
  split
  · exact h
  · split
    · exact h.drop p t _
    · exact h

/-- The loop of `forget`, over any topics. -/
theorem forget_loop (p : π) (sink : Option Sink) (ts : List τ) (r : List τ × Picks π τ) (h : r.2.Inverse) :
    let r' := ts.foldl (fun r t =>
      let d := r.2.dropOf p t sink
      (if d.1 then r.1 ++ [t] else r.1, d.2)) r
    r'.2.Inverse ∧ ∀ p' t', r'.2.sinkOf p' t' =
      if p' = p ∧ t' ∈ ts ∧ (sink = none ∨ sink = r.2.sinkOf p t') then none else r.2.sinkOf p' t' := by
  induction ts generalizing r with
  | nil => exact ⟨h, fun p' t' => by simp⟩
  | cons t ts ih =>
      obtain ⟨hinv, hget⟩ := ih (if (r.2.dropOf p t sink).1 then r.1 ++ [t] else r.1, (r.2.dropOf p t sink).2)
        (h.dropOf p t sink)
      refine ⟨hinv, fun p' t' => ?_⟩
      rw [List.foldl_cons, hget, sinkOf_dropOf, sinkOf_dropOf]
      by_cases hp : p' = p
      · subst hp
        by_cases ht : t' = t
        · subst ht
          by_cases hs : sink = none ∨ sink = r.2.sinkOf p' t'
          · simp [hs]
          · simp [hs]
        · simp [ht]
      · simp [hp]

theorem forgetOf_spec (h : k.Inverse) (p : π) (sink : Option Sink) : (k.forgetOf p sink).2.Inverse ∧
    ∀ p' t', (k.forgetOf p sink).2.sinkOf p' t' =
      if p' = p ∧ (sink = none ∨ sink = k.sinkOf p t') then none else k.sinkOf p' t' := by
  obtain ⟨hinv, hget⟩ := forget_loop p sink (k.topicsOf p) ([], k) h
  refine ⟨hinv, fun p' t' => (hget p' t').trans ?_⟩
  by_cases hin : t' ∈ k.topicsOf p
  · simp [hin]
  · -- a topic that is not in the peer's set has no stream of it either
    have hnone : k.sinkOf p t' = none := Option.eq_none_iff_forall_ne_some.mpr fun s hs => hin ((h.same p t').mpr ⟨s, hs⟩)
    by_cases hp : p' = p
    · simp [hin, hp, hnone]
    · simp [hp]

/-! ## Runs -/

theorem run_append (ops : List (PickOp π τ)) (o : PickOp π τ) : run (ops ++ [o]) = (run ops).act o := by
  simp [run]

theorem act_inverse (h : k.Inverse) (o : PickOp π τ) : (k.act o).Inverse := by
  cases o with
  | add p t s => exact h.add p t s
  | drop p t sink => exact h.dropOf p t sink
  | forget p sink => exact (forgetOf_spec h p sink).1

theorem run_inverse (ops : List (PickOp π τ)) : (run ops).Inverse := by
  induction ops using List.reverseRecOn with
  | nil => exact .empty
  | append_singleton ops o ih =>
      rw [run_append]
      exact act_inverse ih o

/-- What is registered after an operation: what it adds, or what it does not take back. -/
theorem sinkOf_act (h : k.Inverse) (o : PickOp π τ) (p : π) (t : τ) (s : Sink) :
    (k.act o).sinkOf p t = some s ↔ o = .add p t s ∨ k.sinkOf p t = some s ∧ ¬o.Adds p t ∧ ¬o.Removes p t s := by
  cases o with
  | add p' t' s' =>
      rw [act, sinkOf_add]
      by_cases hpt : p = p' ∧ t = t'
      · obtain ⟨rfl, rfl⟩ := hpt
        simp [PickOp.Adds]
      · have hadd : ¬PickOp.Adds p t (.add p' t' s') := fun ha => hpt ⟨ha.1.symm, ha.2.symm⟩
        have hne : PickOp.add p' t' s' ≠ .add p t s := by
          intro heq
          cases heq
          exact hpt ⟨rfl, rfl⟩
        simp [hpt, hadd, hne, PickOp.Removes]
  | drop p' t' sink =>
      rw [act, sinkOf_dropOf]
      by_cases hpt : p = p' ∧ t = t'
      · obtain ⟨rfl, rfl⟩ := hpt
        by_cases hs : k.sinkOf p t = some s
        · simp [hs, PickOp.Adds, PickOp.Removes]
        · simp [hs, PickOp.Adds]
      · have hrem : ¬PickOp.Removes p t s (.drop p' t' sink) := fun hr => hpt ⟨hr.1.symm, hr.2.1.symm⟩
        rw [if_neg fun hc => hpt ⟨hc.1, hc.2.1⟩]
        simp [hrem, PickOp.Adds]
  | forget p' sink =>
      rw [act, (forgetOf_spec h p' sink).2]
      by_cases hp : p = p'
      · subst hp
        by_cases hs : k.sinkOf p t = some s
        · simp [hs, PickOp.Adds, PickOp.Removes]
        · simp [hs, PickOp.Adds]
      · have hrem : ¬PickOp.Removes p t s (.forget p' sink) := fun hr => hp hr.1.symm
        rw [if_neg fun hc => hp hc.1]
        simp [hrem, PickOp.Adds]

theorem sinkOf_run (ops : List (PickOp π τ)) (p : π) (t : τ) (s : Sink) :
    (run ops).sinkOf p t = some s ↔ PickOp.Stands ops p t s := by
  induction ops using List.reverseRecOn with
  | nil => simp [run, sinkOf, sinks, Picks.empty, PickOp.Stands]
  | append_singleton ops o ih =>
      rw [run_append, sinkOf_act (run_inverse ops), ih]
      constructor
      · rintro (rfl | ⟨⟨pre, post, rfl, hpost⟩, hadds, hremoves⟩)
        · exact ⟨ops, [], rfl, fun o ho => absurd ho List.not_mem_nil⟩
        · refine ⟨pre, post ++ [o], by simp, fun o' ho' => ?_⟩
          rcases List.mem_append.mp ho' with ho' | ho'
          · exact hpost o' ho'
          · rw [List.mem_singleton.mp ho']
            exact ⟨hadds, hremoves⟩
      · rintro ⟨pre, post, heq, hpost⟩
        -- the last operation is the pick itself, or one that came after it
        rcases List.eq_nil_or_concat' post with rfl | ⟨post, o', rfl⟩
        · exact .inl (List.append_inj_right' heq rfl |> List.cons.inj |>.1)
        · have hcons : ops ++ [o] = (pre ++ .add p t s :: post) ++ [o'] := by rw [heq]; simp
          obtain ⟨rfl, ho⟩ := List.append_inj' hcons rfl
          obtain rfl := (List.cons.inj ho).1
          exact .inr ⟨⟨pre, post, rfl, fun x hx => hpost x (List.mem_append_left _ hx)⟩,
            hpost o (List.mem_append_right _ List.mem_cons_self)⟩

/-- What is delivered to: one stream for each peer that has one. -/
theorem sinksFor_eq (k : Picks π τ) (t : τ) (exceptPeer : Option π) :
    ((k.sinks t).entries.map Prod.fst).Nodup ∧ (∀ p s, (p, s) ∈ (k.sinks t).entries ↔ k.sinkOf p t = some s) ∧
    k.sinksFor t exceptPeer = ((k.sinks t).entries.filter fun e => some e.1 ≠ exceptPeer).map Prod.snd :=
  ⟨(k.sinks t).nodup, fun _ _ => OrdMap.get_eq_some.symm, rfl⟩

end Picks

open Picks in
/-- **After any operations the two indexes are inverse; a topic is delivered to one stream for each peer, that of its
latest pick which was not taken back since; and what names another stream of the peer takes none of this one's away.** -/
theorem picks_registry (ops : List (PickOp π τ)) :
    (∀ p t, t ∈ (run ops).topicsOf p ↔ ∃ m s, (run ops).byTopic.get t = some m ∧ m.get p = some s) ∧
    (∀ t m, (run ops).byTopic.get t = some m → 0 < m.size) ∧
    (∀ p set, (run ops).byPeer.get p = some set → set ≠ [] ∧ set.Nodup) ∧
    (∀ t, ∃ es : List (π × Sink), (es.map Prod.fst).Nodup ∧ (∀ p s, (p, s) ∈ es ↔ PickOp.Stands ops p t s) ∧
      ∀ exceptPeer, (run ops).sinksFor t exceptPeer = (es.filter fun e => some e.1 ≠ exceptPeer).map Prod.snd) ∧
    ∀ p t s older o, (run ops).sinkOf p t = some s → older ≠ s → o.Names p older →
      ((run ops).act o).sinkOf p t = some s := by
  have hinv := run_inverse ops
  refine ⟨fun p t => ?_, hinv.topics, hinv.peers, fun t => ?_, ?_⟩
  · rw [hinv.same, sinkOf, sinks]
    cases hget : (run ops).byTopic.get t with
    | none => simp
    | some m => simp
  · obtain ⟨hnd, hmem, -⟩ := sinksFor_eq (run ops) t none
    exact ⟨((run ops).sinks t).entries, hnd, fun p s => (hmem p s).trans (sinkOf_run ops p t s),
      fun exceptPeer => (sinksFor_eq (run ops) t exceptPeer).2.2⟩
  · intro p t s older o hs hne ho
    refine (sinkOf_act hinv o p t s).mpr (.inr ⟨hs, ?_⟩)
    cases o with
    | add p' t' s' => exact ho.elim
    | drop p' t' sink =>
        obtain ⟨-, rfl⟩ := ho
        exact ⟨id, fun hr => hr.2.2.elim (fun h => absurd h (Option.some_ne_none _)) fun h => hne (Option.some.inj h)⟩
    | forget p' sink =>
        obtain ⟨-, rfl⟩ := ho
        exact ⟨id, fun hr => hr.2.elim (fun h => absurd h (Option.some_ne_none _)) fun h => hne (Option.some.inj h)⟩

end EncedoChat.Relay
