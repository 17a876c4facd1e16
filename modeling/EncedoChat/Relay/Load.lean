import EncedoChat.Lib.Run
import EncedoChat.Relay.Carried

/-!
# Who speaks on the load topic

Every frame of the load topic that is handed on comes through the topic's validator, the cache, or from this node. The
sweep takes the validator away with the topic; what brings the topic back gives it the ordinary one.
-/

namespace EncedoChat.Relay

variable {π τ : Type} [DecidableEq π] [DecidableEq τ]

/-- A sibling relay, or this node. -/
def Trusted (C : Config π τ) (author : π) : Prop := author ∈ C.siblings ∨ author = C.self

/-- What is forwarded, delivered or cached of the load topic is of a trusted author. -/
def Authorised (C : Config π τ) : Out π τ → Prop
  | .forward author topic _ | .deliver _ author topic _ => topic = C.loadTopic → Trusted C author
  | .cached author _ => Trusted C author
  | .refused _ _ | .picked _ _ | .ack _ _ _ | .publish _ _ => True

/-- Everything a node puts out. -/
def Node.outputs (C : Config π τ) : Node π τ → List (Event π τ) → List (Out π τ)
  | _, [] => []
  | w, e :: evs => (w.act C e).2 ++ Node.outputs C (w.act C e).1 evs

/-- A frame of a client on the load topic finds the topic's own validator, if the topic is carried. -/
def Guarded (C : Config π τ) (w : Node π τ) : Event π τ → Prop
  | .message author topic data _ => topic = C.loadTopic → topic ∈ w.topics → ¬Trusted C author → oversize data = false →
      w.validators.get topic = some .load
  | _ => True

omit [DecidableEq τ] in
theorem Validator.load_accepts {C : Config π τ} {author : π} {data : Bytes} :
    Validator.load.accepts C author data = true ↔ oversize data = false ∧ Trusted C author := by
  simp [Validator.accepts, Trusted]

/-- What the cache holds and what is being pushed, on the load topic, is of a trusted author. -/
structure Sealed (C : Config π τ) (w : Node π τ) : Prop where
  carried : Carried C w
  cache : w.loadCache.All (fun e => Trusted C e.author)
  pushing : ∀ u ∈ w.pushing, u.topic ≠ C.loadTopic

omit [DecidableEq π] [DecidableEq τ] in
theorem putLoad_trusted {C : Config π τ} {cache : OrdMap String (Cached π)} {author : π} (data : Bytes) (now : Time)
    (h : cache.All (fun e => Trusted C e.author)) (hauthor : Trusted C author) :
    (putLoad C cache author data now).2.All (fun e => Trusted C e.author) := by
  rw [putLoad]
  split
  · exact h
  · split
    · exact h
    · split
      · exact h.set _ hauthor
      · exact h

omit [DecidableEq π] [DecidableEq τ] in
theorem deliverTo_authorised {C : Config π τ} {sinks : List Sink} {author : π} {topic : τ} {data : Bytes}
    (h : topic = C.loadTopic → Trusted C author) : ∀ o ∈ Node.deliverTo sinks author topic data, Authorised C o := by
  intro o ho
  obtain ⟨s, -, rfl⟩ := List.mem_map.mp ho
  exact h

namespace Sealed

variable {C : Config π τ} {w : Node π τ}

theorem start : Sealed C (Node.start : Node π τ) := ⟨.start, .empty, List.forall_mem_nil _⟩

omit [DecidableEq π] in
/-- The cache stays, and nothing new is pushed. -/
theorem stay (I : Sealed C w) {w' : Node π τ} (hcarried : Carried C w') (hcache : w'.loadCache = w.loadCache)
    (hpushing : w'.pushing = w.pushing) : Sealed C w' :=
  ⟨hcarried, hcache ▸ I.cache, hpushing ▸ I.pushing⟩

omit [DecidableEq π] in
theorem sweep_same (C : Config π τ) (now : Time) (ts : List τ) (w : Node π τ) :
    (ts.foldl (Node.sweepTopic C now) w).loadCache = w.loadCache ∧
    (ts.foldl (Node.sweepTopic C now) w).pushing = w.pushing := by
  induction ts generalizing w with
  | nil => exact ⟨rfl, rfl⟩
  | cons t ts ih =>
      have hone : (Node.sweepTopic C now w t).loadCache = w.loadCache ∧ (Node.sweepTopic C now w t).pushing = w.pushing := by
        rw [Node.sweepTopic]
        split
        · exact ⟨rfl, rfl⟩
        · exact ⟨rfl, rfl⟩
      rw [List.foldl_cons]
      exact ⟨(ih _).1.trans hone.1, (ih _).2.trans hone.2⟩

theorem subscription_same (C : Config π τ) (w : Node π τ) (peer : π) (topic : τ) (subscribe : Bool) (now : Time) :
    (w.subscription C peer topic subscribe now).loadCache = w.loadCache ∧
    (w.subscription C peer topic subscribe now).pushing = w.pushing := by
  rw [Node.subscription]
  cases subscribe with
  | false => exact ⟨rfl, rfl⟩
  | true =>
      rw [if_pos rfl]
      cases shouldJoin C peer with
      | false => exact ⟨rfl, rfl⟩
      | true =>
          simp only [if_true]
          split
          · split
            · exact ⟨rfl, rfl⟩
            · exact ⟨rfl, rfl⟩
          · exact ⟨rfl, rfl⟩

theorem pick (I : Sealed C w) (peer : π) (sink : Sink) (topic : τ) (now : Time) :
    Sealed C (w.pick C peer sink topic now).1 ∧ ∀ o ∈ (w.pick C peer sink topic now).2, Authorised C o := by
  have hcarried := I.carried.pick peer sink topic now
  rw [Node.pick] at hcarried ⊢
  split
  · rename_i hrefused
    rw [if_pos hrefused] at hcarried
    refine ⟨I.stay hcarried rfl rfl, ?_⟩
    intro o ho
    cases List.mem_singleton.mp ho
    trivial
  · rename_i hgranted
    rw [if_neg hgranted] at hcarried
    have hjoin : (if topic ∈ w.topics then w else w.join topic).loadCache = w.loadCache ∧
        (if topic ∈ w.topics then w else w.join topic).pushing = w.pushing := by
      split
      · exact ⟨rfl, rfl⟩
      · exact ⟨rfl, rfl⟩
    refine ⟨I.stay hcarried hjoin.1 hjoin.2, ?_⟩
    intro o ho
    rcases List.mem_cons.mp ho with rfl | ho
    · trivial
    · split at ho
      · obtain ⟨e, he, rfl⟩ := List.mem_map.mp ho
        obtain ⟨x, hx, rfl⟩ := List.mem_map.mp (List.mem_filter.mp he).1
        intro _
        exact I.cache.entries x (hjoin.1 ▸ hx)
      · cases ho

theorem message (I : Sealed C w) {author : π} {topic : τ} {data : Bytes} {now : Time}
    (hguard : Guarded C w (.message author topic data now)) :
    Sealed C (w.message C author topic data now).1 ∧ ∀ o ∈ (w.message C author topic data now).2, Authorised C o := by
  have hcarried := I.carried.act (.message author topic data now)
  rw [Node.act, Node.message] at hcarried
  rw [Node.message]
  split
  · rename_i hok
    rw [if_pos hok] at hcarried
    obtain ⟨hmem, hvalid⟩ := hok
    have htrust : topic = C.loadTopic → Trusted C author := by
      intro hload
      by_contra hclient
      obtain ⟨v, hv⟩ := Option.isSome_iff_exists.mp (I.carried.valid topic hmem)
      rw [Node.validate, hv, Option.elim_some] at hvalid
      have hshort : oversize data = false := by
        by_contra hlong
        rw [v.accepts_oversize C author (Bool.eq_true_of_not_eq_false hlong)] at hvalid
        cases hvalid
      cases hv.symm.trans (hguard hload hmem hclient hshort)
      exact hclient (Validator.load_accepts.mp hvalid).2
    refine ⟨⟨hcarried, ?_, I.pushing⟩, ?_⟩
    · dsimp only
      split
      · rename_i hload
        exact putLoad_trusted data now I.cache (htrust hload)
      · exact I.cache
    · intro o ho
      rcases List.mem_cons.mp ho with rfl | ho
      · exact htrust
      rcases List.mem_append.mp ho with ho | ho
      · by_cases hload : topic = C.loadTopic
        · rw [if_pos hload] at ho
          split at ho
          · cases List.mem_singleton.mp ho
            exact htrust hload
          · cases ho
        · rw [if_neg hload] at ho
          cases ho
      · exact deliverTo_authorised htrust o ho
  · exact ⟨I, List.forall_mem_nil _⟩

/-- A guarded step keeps the authority. -/
theorem act (I : Sealed C w) {e : Event π τ} (hguard : Guarded C w e) :
    Sealed C (w.act C e).1 ∧ ∀ o ∈ (w.act C e).2, Authorised C o := by
  have hcarried := I.carried.act e
  have hsilent : ∀ o ∈ ([] : List (Out π τ)), Authorised C o := List.forall_mem_nil _
  cases e with
  | pick peer sink topic now => exact I.pick peer sink topic now
  | drop peer sink topic => exact ⟨I.stay hcarried rfl rfl, hsilent⟩
  | push peer sink topic data =>
      rw [Node.act, Node.push] at hcarried ⊢
      split
      · refine ⟨I, ?_⟩
        intro o ho
        cases List.mem_singleton.mp ho
        trivial
      · rename_i hok
        rw [if_neg hok] at hcarried
        refine ⟨⟨hcarried, I.cache, ?_⟩, ?_⟩
        · intro u hu
          rcases List.mem_append.mp hu with hu | hu
          · exact I.pushing u hu
          · cases List.mem_singleton.mp hu
            exact fun hload => hok (.inl hload)
        · intro o ho
          cases List.mem_singleton.mp ho
          trivial
  | pushed k recipients now =>
      rw [Node.act, Node.pushed] at hcarried ⊢
      cases hu : w.pushing[k]? with
      | none => exact ⟨I, hsilent⟩
      | some u =>
          rw [hu] at hcarried
          refine ⟨⟨hcarried, I.cache, fun v hv => I.pushing v (List.mem_of_mem_eraseIdx hv)⟩, ?_⟩
          intro o ho
          rcases List.mem_append.mp ho with ho | ho
          · exact deliverTo_authorised (fun hload => absurd hload (I.pushing u (List.mem_of_getElem? hu))) o ho
          · cases List.mem_singleton.mp ho
            trivial
  | bye peer sink => exact ⟨I.stay hcarried rfl rfl, hsilent⟩
  | subscription peer topic subscribe now =>
      obtain ⟨hcache, hpushing⟩ := subscription_same C w peer topic subscribe now
      exact ⟨I.stay hcarried hcache hpushing, hsilent⟩
  | message author topic data now => exact I.message hguard
  | sweep now =>
      obtain ⟨hcache, hpushing⟩ := sweep_same C now w.topics w
      exact ⟨I.stay hcarried hcache hpushing, hsilent⟩
  | disconnect peer => exact ⟨I.stay hcarried rfl rfl, hsilent⟩
  | setUpLoad =>
      refine ⟨?_, hsilent⟩
      rw [Node.act, Node.setUpLoad] at hcarried ⊢
      split
      · exact I
      · rename_i hready
        rw [if_neg hready] at hcarried
        exact I.stay hcarried rfl rfl
  | announce mine now =>
      have hself : Trusted C C.self := .inr rfl
      refine ⟨⟨hcarried, putLoad_trusted mine now I.cache hself, I.pushing⟩, ?_⟩
      intro o ho
      rcases List.mem_append.mp ho with ho | ho
      · split at ho
        · cases List.mem_singleton.mp ho
          exact hself
        · cases ho
      · rcases List.mem_cons.mp ho with rfl | ho
        · trivial
        · exact deliverTo_authorised (fun _ => hself) o ho

/-- An unguarded step is a client's frame that is handed on. -/
theorem of_authorised (I : Sealed C w) {e : Event π τ} (h : ∀ o ∈ (w.act C e).2, Authorised C o) : Guarded C w e := by
  cases e with
  | message author topic data now =>
      intro hload hmem hclient hshort
      obtain ⟨v, hv⟩ := Option.isSome_iff_exists.mp (I.carried.valid topic hmem)
      cases v with
      | load => exact hv
      | frame =>
          have hok : topic ∈ w.topics ∧ w.validate C author topic data = true := by
            refine ⟨hmem, ?_⟩
            rw [Node.validate, hv, Option.elim_some, Validator.accepts, hshort]
            rfl
          have hforward : Out.forward author topic data ∈ (w.act C (.message author topic data now)).2 := by
            rw [Node.act, Node.message, if_pos hok]
            exact List.mem_cons_self ..
          exact absurd (h _ hforward hload) hclient
  | _ => trivial

end Sealed

/-- The frames of the load topic that are handed on are of trusted authors if and only if every client's frame on it
finds the topic's own validator. -/
theorem Node.authority (C : Config π τ) (evs : List (Event π τ)) :
    (∀ o ∈ Node.outputs C .start evs, Authorised C o) ↔ Admits (fun w e => (w.act C e).1) (Guarded C) .start evs := by
  have hrun : ∀ (evs : List (Event π τ)) (w : Node π τ), Sealed C w →
      ((∀ o ∈ Node.outputs C w evs, Authorised C o) ↔ Admits (fun w e => (w.act C e).1) (Guarded C) w evs) := by
    intro evs
    induction evs with
    | nil => exact fun _ _ => ⟨fun _ => trivial, fun _ _ h => nomatch h⟩
    | cons e evs ih =>
        intro w I
        rw [Node.outputs, List.forall_mem_append, Admits]
        constructor
        · rintro ⟨hnow, hlater⟩
          have hguard := I.of_authorised hnow
          exact ⟨hguard, (ih _ (I.act hguard).1).mp hlater⟩
        · rintro ⟨hguard, hlater⟩
          exact ⟨(I.act hguard).2, (ih _ (I.act hguard).1).mpr hlater⟩
  exact hrun evs .start .start

/-- No relay beside this one, and a sweep before anybody has spoken. -/
def lonely : Config Nat Nat :=
  { maxTopics := 250, perPeer := 150, idleTtl := 120000, localOnly := false, siblings := [], self := 0, loadTopic := 0,
    parse := fun _ => none }

/-- The load topic is swept away, a client's PICK brings it back, and another client speaks on it. -/
theorem Node.authority_lost : ¬ ∀ evs, ∀ o ∈ Node.outputs lonely .start evs, Authorised lonely o := by
  intro h
  have hforward : Out.forward 2 0 [1] ∈ Node.outputs lonely .start
      [.setUpLoad, .sweep 130000, .pick 1 1 0 140000, .message 2 0 [1] 150000] := by decide
  have htrusted : Trusted lonely 2 := h _ _ hforward rfl
  revert htrusted
  simp [Trusted, lonely]

end EncedoChat.Relay
