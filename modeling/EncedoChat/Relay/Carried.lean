import EncedoChat.Relay.Node

/-!
# The topics a relay carries

The sweep leaves a picked topic alone and every topic that is joined gets a validator, so a pick holds its topic for as
long as it stands.
-/

namespace EncedoChat.Relay

variable {π τ : Type} [DecidableEq π] [DecidableEq τ]

/-- The node after the events. -/
def Node.run (C : Config π τ) (evs : List (Event π τ)) : Node π τ := evs.foldl (fun w e => (w.act C e).1) .start

theorem Node.run_append (C : Config π τ) (evs : List (Event π τ)) (e : Event π τ) :
    Node.run C (evs ++ [e]) = ((Node.run C evs).act C e).1 := by
  simp [Node.run]

/-- What is carried: not too many topics, each with a validator, and every picked one. -/
structure Carried (C : Config π τ) (w : Node π τ) : Prop where
  nodup : w.topics.Nodup
  few : w.topics.length ≤ C.maxTopics + if w.loadReady then 1 else 0
  valid : ∀ t ∈ w.topics, (w.validators.get t).isSome = true
  held : ∀ t, 0 < w.picks.holders t → t ∈ w.topics

omit [DecidableEq τ] in
/-- Neither validator lets a frame through that is too long. -/
theorem Validator.accepts_oversize (C : Config π τ) (v : Validator) (author : π) {data : Bytes} (h : oversize data = true) :
    v.accepts C author data = false := by
  cases v <;> simp [Validator.accepts, h]

theorem Picks.holders_add {k : Picks π τ} {p : π} {t t' : τ} {sink : Sink} (h : 0 < (k.add p t sink).holders t') :
    t' = t ∨ 0 < k.holders t' := by
  rw [Picks.holders, Picks.sinks_add] at h
  split at h
  · rename_i ht
    exact .inl ht
  · exact .inr h

namespace Carried

variable {C : Config π τ} {w : Node π τ}

omit [DecidableEq π] in
theorem start : Carried C (Node.start : Node π τ) :=
  ⟨.nil, Nat.zero_le _, (fun _ h => nomatch h), fun _ h => nomatch h⟩

omit [DecidableEq π] in
/-- The topics stay, and no pick is added. -/
theorem stay (I : Carried C w) {w' : Node π τ} (htopics : w'.topics = w.topics) (hvalid : w'.validators = w.validators)
    (hready : w'.loadReady = w.loadReady) (hheld : ∀ t, w'.picks.holders t ≤ w.picks.holders t) : Carried C w' :=
  ⟨htopics ▸ I.nodup, htopics ▸ hready ▸ I.few, htopics ▸ hvalid ▸ I.valid,
    fun t ht => htopics ▸ I.held t (Nat.lt_of_lt_of_le ht (hheld t))⟩

omit [DecidableEq π] in
theorem join (I : Carried C w) {t : τ} (hnew : t ∉ w.topics) (hroom : w.topics.length < C.maxTopics) :
    Carried C (w.join t) := by
  refine ⟨?_, ?_, ?_, ?_⟩
  · exact List.nodup_append.mpr ⟨I.nodup, List.nodup_singleton t, fun a ha b hb hab => by
      rw [List.mem_singleton.mp hb] at hab
      exact hnew (hab ▸ ha)⟩
  · rw [Node.join, List.length_append, List.length_singleton]
    split <;> omega
  · intro t' ht'
    rw [Node.join, OrdMap.get_set]
    split
    · rfl
    · rename_i hne
      rcases List.mem_append.mp ht' with ht' | ht'
      · exact I.valid t' ht'
      · exact absurd (List.mem_singleton.mp ht') hne
  · intro t' ht'
    exact List.mem_append_left _ (I.held t' ht')

theorem pick (I : Carried C w) (peer : π) (sink : Sink) (topic : τ) (now : Time) :
    Carried C (w.pick C peer sink topic now).1 := by
  have hadd : ∀ {x : Node π τ} {q : Quota π τ}, Carried C x → topic ∈ x.topics →
      Carried C { x.seen topic now with quota := q, picks := x.picks.add peer topic sink } := by
    intro x q J hmem
    refine ⟨J.nodup, J.few, J.valid, ?_⟩
    intro t ht
    rcases Picks.holders_add ht with ht | ht
    · exact ht ▸ hmem
    · exact J.held t ht
  rw [Node.pick]
  split
  · exact I.stay rfl rfl rfl fun _ => Nat.le_refl _
  · rename_i hgranted
    by_cases hmem : topic ∈ w.topics
    · simp only [if_pos hmem]
      exact hadd I hmem
    · have hroom : w.topics.length < C.maxTopics := by
        by_contra hfull
        exact hgranted (.inr ⟨hmem, Nat.le_of_not_lt hfull⟩)
      simp only [if_neg hmem]
      exact hadd (x := w.join topic) (I.join hmem hroom) (List.mem_append_right _ (List.mem_singleton_self topic))

theorem subscription (I : Carried C w) (peer : π) (topic : τ) (subscribe : Bool) (now : Time) :
    Carried C (w.subscription C peer topic subscribe now) := by
  have hquota : ∀ q, Carried C { w with quota := q } := fun _ => I.stay rfl rfl rfl fun _ => Nat.le_refl _
  rw [Node.subscription]
  cases subscribe with
  | false => exact hquota _
  | true =>
      rw [if_pos rfl]
      cases shouldJoin C peer with
      | false => exact I
      | true =>
          simp only [if_true]
          split
          · split
            · rename_i hnew
              exact ((hquota _).join hnew.1 hnew.2).stay rfl rfl rfl fun _ => Nat.le_refl _
            · exact hquota _
          · exact hquota _

omit [DecidableEq π] in
/-- A topic nobody has picked is dropped. -/
theorem evict (I : Carried C w) {t : τ} (hfree : w.picks.holders t = 0) : Carried C (w.evict t) := by
  refine ⟨I.nodup.filter _, Nat.le_trans (List.length_filter_le ..) I.few, ?_, ?_⟩
  · intro t' ht'
    obtain ⟨hmem, hne⟩ := List.mem_filter.mp ht'
    rw [Node.evict, OrdMap.get_delete, if_neg (by simpa using hne)]
    exact I.valid t' hmem
  · intro t' ht'
    refine List.mem_filter.mpr ⟨I.held t' ht', ?_⟩
    apply decide_eq_true
    rintro rfl
    exact absurd ht' (Nat.not_lt.mpr (Nat.le_of_eq hfree))

theorem sweep (I : Carried C w) (now : Time) : Carried C (w.sweep C now) := by
  have hloop : ∀ (ts : List τ) (x : Node π τ), Carried C x →
      Carried C (ts.foldl (Node.sweepTopic C now) x) := by
    intro ts
    induction ts with
    | nil => exact fun _ hx => hx
    | cons t ts ih =>
        intro x hx
        apply ih
        rw [Node.sweepTopic]
        split
        · rename_i hevict
          rw [Node.evictable, Bool.and_eq_true] at hevict
          exact hx.evict (of_decide_eq_true hevict.1)
        · exact hx
  exact hloop w.topics w I

omit [DecidableEq π] in
theorem setUpLoad (I : Carried C w) : Carried C (w.setUpLoad C) := by
  rw [Node.setUpLoad]
  split
  · exact I
  · rename_i hready
    have hfew : w.topics.length ≤ C.maxTopics := by
      have hfew := I.few
      rw [if_neg hready] at hfew
      exact hfew
    refine ⟨?_, ?_, ?_, ?_⟩
    · dsimp only
      split
      · exact I.nodup
      · rename_i hnew
        exact List.nodup_append.mpr ⟨I.nodup, List.nodup_singleton _, fun a ha b hb hab => by
          rw [List.mem_singleton.mp hb] at hab
          exact hnew (hab ▸ ha)⟩
    · dsimp only
      rw [if_pos rfl]
      split
      · omega
      · rw [List.length_append, List.length_singleton]
        omega
    · intro t ht
      dsimp only at ht ⊢
      rw [OrdMap.get_set]
      split
      · rfl
      · rename_i hne
        apply I.valid t
        split at ht
        · exact ht
        · rcases List.mem_append.mp ht with ht | ht
          · exact ht
          · exact absurd (List.mem_singleton.mp ht) hne
    · intro t ht
      dsimp only
      split
      · exact I.held t ht
      · exact List.mem_append_left _ (I.held t ht)

theorem act (I : Carried C w) (e : Event π τ) : Carried C (w.act C e).1 := by
  have hsame : ∀ t, w.picks.holders t ≤ w.picks.holders t := fun _ => Nat.le_refl _
  cases e with
  | pick peer sink topic now => exact I.pick peer sink topic now
  | drop peer sink topic => exact I.stay rfl rfl rfl fun t => Picks.holders_drop_le w.picks peer topic sink t
  | push peer sink topic data =>
      rw [Node.act, Node.push]
      split
      · exact I
      · exact I.stay rfl rfl rfl hsame
  | pushed k recipients now =>
      rw [Node.act, Node.pushed]
      split
      · exact I
      · exact I.stay rfl rfl rfl hsame
  | bye peer sink => exact I.stay rfl rfl rfl fun t => Picks.holders_forget_le w.picks peer sink t
  | subscription peer topic subscribe now => exact I.subscription peer topic subscribe now
  | message author topic data now =>
      rw [Node.act, Node.message]
      split
      · exact I.stay rfl rfl rfl hsame
      · exact I
  | sweep now => exact I.sweep now
  | disconnect peer => exact I.stay rfl rfl rfl hsame
  | setUpLoad => exact I.setUpLoad
  | announce mine now => exact I.stay rfl rfl rfl hsame

theorem run (C : Config π τ) (evs : List (Event π τ)) : Carried C (Node.run C evs) := by
  induction evs using List.reverseRecOn with
  | nil => exact start
  | append_singleton evs e ih =>
      rw [Node.run_append]
      exact ih.act e

end Carried

/-- A PICK that is refused adds no pick. -/
theorem Node.pick_refused {C : Config π τ} {w : Node π τ} {peer : π} {sink : Sink} {topic : τ} {now : Time}
    (h : .refused sink topic ∈ (w.pick C peer sink topic now).2) : (w.pick C peer sink topic now).1.picks = w.picks := by
  rw [Node.pick] at h ⊢
  split
  · rfl
  · rename_i hgranted
    rw [if_neg hgranted] at h
    rcases List.mem_cons.mp h with h | h
    · cases h
    · split at h
      · obtain ⟨e, -, he⟩ := List.mem_map.mp h
        cases he
      · cases h

/-- Whatever comes in: at most one topic more than the limit, a validator against frames too long on every picked topic,
and no pick from a PICK that was refused. -/
theorem Node.carried (C : Config π τ) (evs : List (Event π τ)) :
    (Node.run C evs).topics.length ≤ C.maxTopics + 1 ∧
    (∀ t, 0 < (Node.run C evs).picks.holders t → t ∈ (Node.run C evs).topics ∧
      ∃ v, (Node.run C evs).validators.get t = some v ∧
        ∀ author data, oversize data = true → v.accepts C author data = false) ∧
    ∀ peer sink topic now, .refused sink topic ∈ ((Node.run C evs).pick C peer sink topic now).2 →
      ((Node.run C evs).pick C peer sink topic now).1.picks = (Node.run C evs).picks := by
  have I := Carried.run C evs
  refine ⟨?_, ?_, fun _ _ _ _ => Node.pick_refused⟩
  · have hfew := I.few
    split at hfew <;> omega
  · intro t ht
    have hmem := I.held t ht
    obtain ⟨v, hv⟩ := Option.isSome_iff_exists.mp (I.valid t hmem)
    exact ⟨hmem, v, hv, fun author data hlong => v.accepts_oversize C author hlong⟩

end EncedoChat.Relay
