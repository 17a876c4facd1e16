import EncedoChat.Lib.OrdMap

/-!
# Who asked for what

`makeQuota` of `quota.mjs`, the topics each peer makes this node carry, and `makePicks` of `pick.mjs`, where a picked
topic is delivered.
-/

namespace EncedoChat.Relay

variable {π τ : Type} [DecidableEq π] [DecidableEq τ]

/-- The stream a frame is written to. -/
abbrev Sink := Nat

/-- An entry is set, or removed where nothing is left in it. -/
def keep {κ ν : Type} [DecidableEq κ] (m : OrdMap κ ν) (k : κ) (v : ν) (gone : Bool) : OrdMap κ ν :=
  if gone then m.delete k else m.set k v

theorem get_keep {κ ν : Type} [DecidableEq κ] (m : OrdMap κ ν) (k : κ) (v : ν) (gone : Bool) (k' : κ) :
    (keep m k v gone).get k' = if k' = k then (if gone then none else some v) else m.get k' := by
  cases gone with
  | true => exact OrdMap.get_delete m k k'
  | false => exact OrdMap.get_set m k k' v

/-! ## Quota -/

structure Quota (π τ : Type) where
  /-- peer to its set of topics -/
  held : OrdMap π (List τ)

namespace Quota

def empty : Quota π τ := ⟨.empty⟩

/-- The topics of a peer. -/
def of (q : Quota π τ) (p : π) : List τ := (q.held.get p).getD []

/-- The peer has a set. -/
def touch (q : Quota π τ) (p : π) : Quota π τ := if q.held.has p then q else ⟨q.held.set p []⟩

/-- May this peer add this topic? -/
def claim (q : Quota π τ) (limit : Nat) (p : π) (t : τ) : Bool × Quota π τ :=
  let set := q.of p
  let q := q.touch p
  if t ∈ set then (true, q)
  else if limit ≤ set.length then (false, q)
  else (true, ⟨q.held.set p (set ++ [t])⟩)

def release (q : Quota π τ) (p : π) (t : τ) : Quota π τ :=
  match q.held.get p with
  | none => q
  | some set =>
    let set := set.filter (fun t' => t' ≠ t)
    ⟨keep q.held p set set.isEmpty⟩

def forget (q : Quota π τ) (p : π) : Quota π τ := ⟨q.held.delete p⟩

omit [DecidableEq τ] in
@[simp] theorem of_empty (p : π) : (empty : Quota π τ).of p = [] := rfl

omit [DecidableEq τ] in
theorem of_touch (q : Quota π τ) (p p' : π) : (q.touch p).of p' = q.of p' := by
  rw [touch]
  split
  · rfl
  · rename_i hnone
    rw [of, OrdMap.get_set]
    split
    · rename_i hp
      subst hp
      cases hget : q.held.get p' with
      | none => simp [of, hget]
      | some set => exact absurd (OrdMap.has_of_get hget) hnone
    · rfl

theorem of_claim (q : Quota π τ) (limit : Nat) (p : π) (t : τ) (p' : π) :
    (q.claim limit p t).2.of p' =
      if p' = p ∧ t ∉ q.of p ∧ (q.of p).length < limit then q.of p ++ [t] else q.of p' := by
  rw [claim]
  by_cases hmem : t ∈ q.of p
  · rw [if_pos hmem, if_neg (fun h => h.2.1 hmem)]
    exact of_touch q p p'
  rw [if_neg hmem]
  by_cases hlimit : limit ≤ (q.of p).length
  · rw [if_pos hlimit, if_neg (fun h => absurd h.2.2 (Nat.not_lt.mpr hlimit))]
    exact of_touch q p p'
  rw [if_neg hlimit, of, OrdMap.get_set]
  by_cases hp : p' = p
  · rw [if_pos hp, if_pos ⟨hp, hmem, Nat.lt_of_not_le hlimit⟩]
    rfl
  · rw [if_neg hp, if_neg (fun h => hp h.1)]
    exact of_touch q p p'

theorem claim_iff (q : Quota π τ) (limit : Nat) (p : π) (t : τ) :
    (q.claim limit p t).1 = true ↔ t ∈ q.of p ∨ (q.of p).length < limit := by
  rw [claim]
  split
  · simp [*]
  · split
    · rename_i hmem hlimit
      simp [hmem, hlimit]
    · rename_i hmem hlimit
      simp [Nat.lt_of_not_le hlimit]

theorem of_release (q : Quota π τ) (p : π) (t : τ) (p' : π) :
    (q.release p t).of p' = if p' = p then (q.of p).filter (fun t' => t' ≠ t) else q.of p' := by
  rw [release]
  cases hget : q.held.get p with
  | none =>
      by_cases hp : p' = p
      · rw [if_pos hp, hp, of, hget]
        rfl
      · rw [if_neg hp]
  | some set =>
      rw [of, get_keep]
      by_cases hp : p' = p
      · rw [if_pos hp, if_pos hp, of, hget]
        split
        · rename_i hempty
          exact (List.isEmpty_iff.mp hempty).symm
        · rfl
      · rw [if_neg hp, if_neg hp]
        rfl

omit [DecidableEq τ] in
theorem of_forget (q : Quota π τ) (p p' : π) : (q.forget p).of p' = if p' = p then [] else q.of p' := by
  rw [forget, of, OrdMap.get_delete]
  split
  · rfl
  · rfl

/-- No peer holds more than its share, nor a topic twice. -/
structure Fair (limit : Nat) (q : Quota π τ) : Prop where
  few : ∀ p, (q.of p).length ≤ limit
  nodup : ∀ p, (q.of p).Nodup

namespace Fair

variable {limit : Nat} {q : Quota π τ}

omit [DecidableEq τ] in
theorem empty (limit : Nat) : Fair limit (empty : Quota π τ) := ⟨fun _ => Nat.zero_le _, fun _ => .nil⟩

theorem claim (h : Fair limit q) (p : π) (t : τ) : Fair limit (q.claim limit p t).2 := by
  refine ⟨?_, ?_⟩
  · intro p'
    rw [of_claim]
    split
    · rw [List.length_append, List.length_singleton]
      omega
    · exact h.few p'
  · intro p'
    rw [of_claim]
    split
    · rename_i hp
      exact List.nodup_append.mpr ⟨h.nodup p, List.nodup_singleton t, fun a ha b hb hab => by
        rw [List.mem_singleton.mp hb] at hab
        exact hp.2.1 (hab ▸ ha)⟩
    · exact h.nodup p'

theorem release (h : Fair limit q) (p : π) (t : τ) : Fair limit (q.release p t) := by
  refine ⟨?_, ?_⟩
  · intro p'
    rw [of_release]
    split
    · exact Nat.le_trans (List.length_filter_le ..) (h.few p)
    · exact h.few p'
  · intro p'
    rw [of_release]
    split
    · exact (h.nodup p).filter _
    · exact h.nodup p'

theorem forget (h : Fair limit q) (p : π) : Fair limit (q.forget p) := by
  refine ⟨?_, ?_⟩
  · intro p'
    rw [of_forget]
    split
    · exact Nat.zero_le _
    · exact h.few p'
  · intro p'
    rw [of_forget]
    split
    · exact .nil
    · exact h.nodup p'

end Fair

end Quota

/-! ## Picks -/

structure Picks (π τ : Type) where
  byTopic : OrdMap τ (OrdMap π Sink)
  byPeer : OrdMap π (List τ)

namespace Picks

def empty : Picks π τ := ⟨.empty, .empty⟩

def sinks (k : Picks π τ) (t : τ) : OrdMap π Sink := (k.byTopic.get t).getD .empty

def topicsOf (k : Picks π τ) (p : π) : List τ := (k.byPeer.get p).getD []

def add (k : Picks π τ) (p : π) (t : τ) (sink : Sink) : Picks π τ :=
  let set := k.topicsOf p
  ⟨k.byTopic.set t ((k.sinks t).set p sink), k.byPeer.set p (if t ∈ set then set else set ++ [t])⟩

/-- A DROP, or a close, of the stream that picked. -/
def drop (k : Picks π τ) (p : π) (t : τ) (sink : Sink) : Bool × Picks π τ :=
  if (k.sinks t).get p = some sink then
    let m := (k.sinks t).delete p
    let set := (k.topicsOf p).filter (fun t' => t' ≠ t)
    (true, ⟨keep k.byTopic t m (m.size = 0), keep k.byPeer p set set.isEmpty⟩)
  else (false, k)

/-- A stream went away: what it picked is released and returned. -/
def forget (k : Picks π τ) (p : π) (sink : Sink) : List τ × Picks π τ :=
  (k.topicsOf p).foldl (fun r t =>
    let d := r.2.drop p t sink
    (if d.1 then r.1 ++ [t] else r.1, d.2)) ([], k)

def sinksFor (k : Picks π τ) (t : τ) (exceptPeer : Option π) : List Sink :=
  ((k.sinks t).entries.filter (fun e => some e.1 ≠ exceptPeer)).map Prod.snd

def holders (k : Picks π τ) (t : τ) : Nat := (k.sinks t).size

theorem sinks_add (k : Picks π τ) (p : π) (t : τ) (sink : Sink) (t' : τ) :
    (k.add p t sink).sinks t' = if t' = t then (k.sinks t).set p sink else k.sinks t' := by
  rw [add, sinks, OrdMap.get_set]
  split
  · rfl
  · rfl

omit [DecidableEq π] in
theorem size_zero {m : OrdMap π Sink} (h : m.size = 0) : m = .empty := by
  obtain ⟨entries, nodup⟩ := m
  obtain rfl : entries = [] := List.length_eq_zero_iff.mp h
  rfl

theorem sinks_drop (k : Picks π τ) (p : π) (t : τ) (sink : Sink) (t' : τ) :
    (k.drop p t sink).2.sinks t' =
      if t' = t ∧ (k.sinks t).get p = some sink then (k.sinks t).delete p else k.sinks t' := by
  rw [drop]
  by_cases hsink : (k.sinks t).get p = some sink
  · rw [if_pos hsink, sinks, get_keep]
    by_cases ht : t' = t
    · subst ht
      by_cases hzero : ((k.sinks t').delete p).size = 0
      · rw [if_pos rfl, if_pos (decide_eq_true hzero), if_pos ⟨rfl, hsink⟩, size_zero hzero]
        rfl
      · simp [hsink, hzero]
    · rw [if_neg ht, if_neg (fun h => ht h.1)]
      rfl
  · rw [if_neg hsink, if_neg (fun h => hsink h.2)]

/-- A drop takes nothing but a peer off a topic. -/
theorem holders_drop_le (k : Picks π τ) (p : π) (t : τ) (sink : Sink) (t' : τ) :
    (k.drop p t sink).2.holders t' ≤ k.holders t' := by
  rw [holders, sinks_drop]
  split
  · rename_i h
    rw [h.1]
    exact List.length_filter_le ..
  · exact Nat.le_refl _

theorem holders_forget_le (k : Picks π τ) (p : π) (sink : Sink) (t' : τ) :
    (k.forget p sink).2.holders t' ≤ k.holders t' := by
  have hfold : ∀ (ts : List τ) (r : List τ × Picks π τ), r.2.holders t' ≤ k.holders t' →
      (ts.foldl (fun r t =>
        let d := r.2.drop p t sink
        (if d.1 then r.1 ++ [t] else r.1, d.2)) r).2.holders t' ≤ k.holders t' := by
    intro ts
    induction ts with
    | nil => exact fun _ hr => hr
    | cons t ts ih => exact fun r hr => ih _ (Nat.le_trans (holders_drop_le ..) hr)
  exact hfold _ _ (Nat.le_refl _)

end Picks

end EncedoChat.Relay
