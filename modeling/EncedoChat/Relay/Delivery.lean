import EncedoChat.Message.Frame
import EncedoChat.Relay.Frames
import EncedoChat.Relay.Load
import EncedoChat.Relay.Registry

/-!
# What a pick is delivered

The DELIVER frames of one relay over a whole run, and what a topic handler of the other side reads of them: the frames
of `pick.mjs` around the envelope of `lib/origin.ts`.
-/

namespace EncedoChat.Relay

variable {π τ : Type} [DecidableEq π] [DecidableEq τ] {C : Config π τ}

/-! ## Who holds a topic -/

/-- A PICK of the topic on this stream that is answered PICKED. -/
def Picked (C : Config π τ) (w : Node π τ) (p : π) (t : τ) (s : Sink) (e : Event π τ) : Prop :=
  ∃ now, e = .pick p s t now ∧ .picked s t ∈ (w.act C e).2

/-- The stream drops the topic or closes, or the peer's next PICK of it is answered PICKED, on whichever stream. -/
def Ends (C : Config π τ) (w : Node π τ) (p : π) (t : τ) (s : Sink) (e : Event π τ) : Prop :=
  e = .drop p s t ∨ e = .bye p s ∨ ∃ s', Picked C w p t s' e

/-- The stream on which the peer holds the topic after a run. -/
inductive Held (C : Config π τ) (p : π) (t : τ) (s : Sink) : List (Event π τ) → Prop
  | pick {evs : List (Event π τ)} {e : Event π τ} : Picked C (Node.run C evs) p t s e → Held C p t s (evs ++ [e])
  | stay {evs : List (Event π τ)} {e : Event π τ} : Held C p t s evs → ¬Ends C (Node.run C evs) p t s e →
      Held C p t s (evs ++ [e])

theorem not_held_nil {p : π} {t : τ} {s : Sink} : ¬Held C p t s [] := by
  intro h
  generalize hevs : ([] : List (Event π τ)) = evs at h
  cases h with
  | pick _ => exact List.concat_ne_nil _ _ hevs.symm
  | stay _ _ => exact List.concat_ne_nil _ _ hevs.symm

theorem held_append {evs : List (Event π τ)} {e : Event π τ} {p : π} {t : τ} {s : Sink} : Held C p t s (evs ++ [e]) ↔
    Picked C (Node.run C evs) p t s e ∨ Held C p t s evs ∧ ¬Ends C (Node.run C evs) p t s e := by
  constructor
  · intro h
    generalize hevs : evs ++ [e] = evs' at h
    cases h with
    | pick hpick =>
        obtain ⟨rfl, he⟩ := List.append_inj' hevs rfl
        exact .inl ((List.cons.inj he).1 ▸ hpick)
    | stay hheld hends =>
        obtain ⟨rfl, he⟩ := List.append_inj' hevs rfl
        obtain rfl := (List.cons.inj he).1
        exact .inr ⟨hheld, hends⟩
  · rintro (h | ⟨hheld, hends⟩)
    · exact .pick h
    · exact .stay hheld hends

/-! ## The registry of a run -/

namespace Node

variable {w : Node π τ}

/-- Answered PICKED, the pick is in the registry; otherwise the registry is as it was. -/
theorem picks_pick (p : π) (s : Sink) (t : τ) (now : Time) : (w.pick C p s t now).1.picks =
    if .picked s t ∈ (w.pick C p s t now).2 then w.picks.add p t s else w.picks := by
  rw [pick]
  split
  · rw [if_neg]
    intro h
    cases List.mem_singleton.mp h
  · rw [if_pos List.mem_cons_self]
    dsimp only
    split
    · rfl
    · rfl

theorem picks_subscription (p : π) (t : τ) (subscribe : Bool) (now : Time) :
    (w.subscription C p t subscribe now).picks = w.picks := by
  rw [subscription]
  cases subscribe with
  | false => rfl
  | true =>
      rw [if_pos rfl]
      cases shouldJoin C p with
      | false => rfl
      | true =>
          simp only [if_true]
          split
          · split
            · rfl
            · rfl
          · rfl

/-- What an eviction keeps, a sweep keeps. -/
theorem swept {P : Node π τ → Prop} (hevict : ∀ x t, P x → P (x.evict t)) (h : P w) (now : Time) :
    P (w.sweep C now) := by
  refine List.foldlRecOn w.topics (sweepTopic C now) h fun x hx t _ => ?_
  rw [sweepTopic]
  split
  · exact hevict x t hx
  · exact hx

/-- What an event does to the registry, if anything. -/
def op (C : Config π τ) (w : Node π τ) (e : Event π τ) : Option (PickOp π τ) :=
  match e with
  | .pick p s t _ => if .picked s t ∈ (w.act C e).2 then some (.add p t s) else none
  | .drop p s t => some (.drop p t (some s))
  | .bye p s => some (.forget p (some s))
  | _ => none

theorem picks_act (e : Event π τ) : (w.act C e).1.picks = (w.op C e).elim w.picks w.picks.act := by
  cases e with
  | pick p s t now =>
      show (w.pick C p s t now).1.picks = _
      rw [picks_pick, op, act]
      split
      · rfl
      · rfl
  | drop p s t => exact congrArg Prod.snd (Picks.dropOf_some w.picks p t s).symm
  | bye p s => exact congrArg Prod.snd (Picks.forgetOf_some w.picks p s).symm
  | push p s t data =>
      rw [act, push]
      split
      · rfl
      · rfl
  | pushed k n now =>
      rw [act, pushed]
      split
      · rfl
      · rfl
  | subscription p t subscribe now => exact picks_subscription p t subscribe now
  | message author t data now =>
      rw [act, message]
      split
      · rfl
      · rfl
  | sweep now => exact swept (P := fun x => x.picks = w.picks) (fun _ _ h => h) rfl now
  | disconnect p => rfl
  | setUpLoad =>
      show (w.setUpLoad C).picks = _
      rw [setUpLoad]
      split
      · rfl
      · rfl
  | announce mine now => rfl

theorem op_adds {e : Event π τ} {p : π} {t : τ} {s : Sink} : w.op C e = some (.add p t s) ↔ Picked C w p t s e := by
  constructor
  · intro h
    cases e with
    | pick p' s' t' now =>
        rw [op] at h
        split at h
        · next hpicked =>
          cases Option.some.inj h
          exact ⟨now, rfl, hpicked⟩
        · cases h
    | _ => cases h
  · rintro ⟨now, rfl, hpicked⟩
    exact if_pos hpicked

/-- An event that does nothing to the registry ends no hold. -/
theorem not_ends {e : Event π τ} {p : π} {t : τ} {s : Sink} (h : w.op C e = none) : ¬Ends C w p t s e := by
  rintro (rfl | rfl | ⟨s', hs'⟩)
  · cases h
  · cases h
  · rw [op_adds.mpr hs'] at h
    cases h

/-- What is registered after an event: what it picks, or what it does not end. -/
theorem sinkOf_act (h : w.picks.Inverse) (e : Event π τ) {p : π} {t : τ} {s : Sink} :
    (w.act C e).1.picks.sinkOf p t = some s ↔
      Picked C w p t s e ∨ w.picks.sinkOf p t = some s ∧ ¬Ends C w p t s e := by
  rw [picks_act]
  cases hop : w.op C e with
  | none =>
      have hends : ¬Ends C w p t s e := not_ends hop
      have hpick : ¬Picked C w p t s e := fun hp => hends (.inr (.inr ⟨s, hp⟩))
      exact ⟨fun hs => .inr ⟨hs, hends⟩, fun hs => (hs.resolve_left hpick).1⟩
  | some o =>
      refine (Picks.sinkOf_act h o p t s).trans ?_
      rw [← op_adds, hop, Option.some.injEq]
      refine or_congr_right (and_congr_right fun _ => not_or.symm.trans (not_congr ?_))
      -- the operation adds or takes back exactly where the event ends the hold
      constructor
      · intro hchange
        cases e with
        | pick p' s' t' now =>
            rcases hchange with hadds | hremoves
            · cases o with
              | add p'' t'' s'' =>
                  obtain ⟨rfl, rfl⟩ := hadds
                  exact .inr (.inr ⟨s'', op_adds.mp hop⟩)
              | drop _ _ _ => cases hadds
              | forget _ _ => cases hadds
            · rw [op] at hop
              split at hop
              · cases Option.some.inj hop
                cases hremoves
              · cases hop
        | drop p' s' t' =>
            cases Option.some.inj hop
            rcases hchange with hadds | ⟨rfl, rfl, hs⟩
            · cases hadds
            · rcases hs with hs | hs
              · cases hs
              · cases Option.some.inj hs
                exact .inl rfl
        | bye p' s' =>
            cases Option.some.inj hop
            rcases hchange with hadds | ⟨rfl, hs⟩
            · cases hadds
            · rcases hs with hs | hs
              · cases hs
              · cases Option.some.inj hs
                exact .inr (.inl rfl)
        | _ => cases hop
      · rintro (rfl | rfl | ⟨s', hs'⟩)
        · cases Option.some.inj hop
          exact .inr ⟨rfl, rfl, .inr rfl⟩
        · cases Option.some.inj hop
          exact .inr ⟨rfl, .inr rfl⟩
        · rw [op_adds.mpr hs'] at hop
          cases Option.some.inj hop
          exact .inl ⟨rfl, rfl⟩

theorem inverse_run (evs : List (Event π τ)) : (run C evs).picks.Inverse := by
  induction evs using List.reverseRecOn with
  | nil => exact .empty
  | append_singleton evs e ih =>
      rw [run_append, picks_act]
      cases (run C evs).op C e with
      | none => exact ih
      | some o => exact Picks.act_inverse ih o

/-- The registry after a run is the streams that hold. -/
theorem sinkOf_run (evs : List (Event π τ)) (p : π) (t : τ) (s : Sink) :
    (run C evs).picks.sinkOf p t = some s ↔ Held C p t s evs := by
  induction evs using List.reverseRecOn with
  | nil => exact ⟨fun h => (by cases h), fun h => absurd h not_held_nil⟩
  | append_singleton evs e ih => rw [run_append, sinkOf_act (inverse_run evs), ih, held_append]

/-! ## What is delivered -/

/-- The load topic's validator is on no other topic. -/
def Apart (C : Config π τ) (w : Node π τ) : Prop := ∀ t, w.validators.get t = some .load → t = C.loadTopic

omit [DecidableEq π] in
theorem Apart.join (h : w.Apart C) (t : τ) : (w.join t).Apart C := by
  intro t' hload
  rw [Node.join, OrdMap.get_set] at hload
  split at hload
  · cases hload
  · exact h t' hload

omit [DecidableEq π] in
theorem Apart.evict (h : w.Apart C) (t : τ) : (w.evict t).Apart C := by
  intro t' hload
  rw [Node.evict, OrdMap.get_delete] at hload
  split at hload
  · cases hload
  · exact h t' hload

theorem Apart.act (h : w.Apart C) (e : Event π τ) : (w.act C e).1.Apart C := by
  cases e with
  | pick p s t now =>
      rw [Node.act, pick]
      split
      · exact h
      · dsimp only
        split
        · exact h
        · exact h.join t
  | drop p s t => exact h
  | bye p s => exact h
  | push p s t data =>
      rw [Node.act, push]
      split
      · exact h
      · exact h
  | pushed k n now =>
      rw [Node.act, pushed]
      split
      · exact h
      · exact h
  | subscription p t subscribe now =>
      show (w.subscription C p t subscribe now).Apart C
      rw [subscription]
      split
      · split
        · dsimp only
          split
          · split
            · exact Apart.join (w := { w with quota := _ }) h t
            · exact h
          · exact h
        · exact h
      · exact h
  | message author t data now =>
      rw [Node.act, message]
      split
      · exact h
      · exact h
  | sweep now => exact swept (fun _ t hx => hx.evict t) h now
  | disconnect p => exact h
  | setUpLoad =>
      show (w.setUpLoad C).Apart C
      rw [setUpLoad]
      split
      · exact h
      · intro t' hload
        rw [OrdMap.get_set] at hload
        split at hload
        · assumption
        · exact h t' hload
  | announce mine now => exact h

theorem apart_run (evs : List (Event π τ)) : (run C evs).Apart C := by
  induction evs using List.reverseRecOn with
  | nil => exact fun t h => (by cases h)
  | append_singleton evs e ih =>
      rw [run_append]
      exact ih.act e

/-- The frames that are written to pick streams: the stream, the author, the topic and the data. -/
def delivers (outs : List (Out π τ)) : List (Sink × π × τ × Bytes) :=
  outs.filterMap fun o => match o with
    | .deliver s author t data => some (s, author, t, data)
    | _ => none

omit [DecidableEq π] [DecidableEq τ] in
theorem delivers_append (a b : List (Out π τ)) : delivers (a ++ b) = delivers a ++ delivers b := List.filterMap_append

omit [DecidableEq π] [DecidableEq τ] in
theorem delivers_deliverTo (sinks : List Sink) (author : π) (t : τ) (data : Bytes) :
    delivers (deliverTo sinks author t data) = sinks.map fun s => (s, author, t, data) := by
  rw [delivers, deliverTo, List.filterMap_map]
  exact congrFun (List.filterMap_eq_map (f := fun s => (s, author, t, data))) sinks

omit [DecidableEq π] [DecidableEq τ] in
theorem mem_delivers {outs : List (Out π τ)} {s : Sink} {author : π} {t : τ} {data : Bytes} :
    (s, author, t, data) ∈ delivers outs ↔ .deliver s author t data ∈ outs := by
  rw [delivers, List.mem_filterMap]
  constructor
  · rintro ⟨o, ho, heq⟩
    cases o with
    | deliver s' author' t' data' =>
        cases Option.some.inj heq
        exact ho
    | _ => cases heq
  · exact fun h => ⟨_, h, rfl⟩

omit [DecidableEq π] [DecidableEq τ] in
theorem delivers_cached (put : Bool) (author : π) (data : Bytes) :
    delivers (if put then [Out.cached (τ := τ) author data] else []) = [] := by
  cases put with
  | false => rfl
  | true => rfl

theorem sinksFor_except (k : Picks π τ) (t : τ) (p : π) :
    k.sinksFor t (some p) = ((k.sinks t).entries.filter fun e => e.1 ≠ p).map Prod.snd := by
  simp [Picks.sinksFor]

/-- What is delivered to the streams of a topic goes to streams that hold it. -/
theorem held_of_deliverTo {evs : List (Event π τ)} {except : Option π} {t t' : τ} {s : Sink} {author author' : π}
    {data data' : Bytes}
    (h : .deliver s author t data ∈ deliverTo ((run C evs).picks.sinksFor t' except) author' t' data') :
    ∃ p, Held C p t s evs := by
  obtain ⟨s', hs', heq⟩ := List.mem_map.mp h
  cases heq
  obtain ⟨e, he, rfl⟩ := List.mem_map.mp hs'
  exact ⟨e.1, (sinkOf_run evs e.1 t e.2).mp (OrdMap.get_eq_some.mpr (List.mem_of_mem_filter he))⟩

/-- Nothing is written but to streams that hold the topic, the one that has just picked it among them. -/
theorem held_of_deliver {evs : List (Event π τ)} {e : Event π τ} {s : Sink} {author : π} {t : τ} {data : Bytes}
    (h : .deliver s author t data ∈ ((run C evs).act C e).2) : ∃ p, Held C p t s (evs ++ [e]) := by
  cases e with
  | pick p s' t' now =>
      have hout := h
      rw [act, pick] at hout
      split at hout
      · cases List.mem_singleton.mp hout
      · next hgranted =>
        rcases List.mem_cons.mp hout with hpicked | hcached
        · cases hpicked
        · split at hcached
          · next hload =>
            obtain ⟨c, -, heq⟩ := List.mem_map.mp hcached
            cases heq
            refine ⟨p, .pick ⟨now, hload ▸ rfl, ?_⟩⟩
            rw [act, pick, if_neg hgranted]
            exact hload ▸ List.mem_cons_self
          · cases hcached
  | push p s' t' data' =>
      rw [act, push] at h
      split at h
      · cases List.mem_singleton.mp h
      · cases List.mem_singleton.mp h
  | pushed k n now =>
      rw [act, pushed] at h
      split at h
      · cases h
      · rcases List.mem_append.mp h with h | h
        · obtain ⟨p, hp⟩ := held_of_deliverTo h
          exact ⟨p, .stay hp (not_ends rfl)⟩
        · cases List.mem_singleton.mp h
  | message author' t' data' now =>
      rw [act, message] at h
      split at h
      · rcases List.mem_cons.mp h with h | h
        · cases h
        · rcases List.mem_append.mp h with h | h
          · have hnone := mem_delivers.mpr h
            rw [delivers_cached] at hnone
            cases hnone
          · obtain ⟨p, hp⟩ := held_of_deliverTo h
            exact ⟨p, .stay hp (not_ends rfl)⟩
      · cases h
  | announce mine now =>
      rw [act, announce] at h
      rcases List.mem_append.mp h with h | h
      · have hnone := mem_delivers.mpr h
        rw [delivers_cached] at hnone
        cases hnone
      · rcases List.mem_cons.mp h with h | h
        · cases h
        · obtain ⟨p, hp⟩ := held_of_deliverTo h
          exact ⟨p, .stay hp (not_ends rfl)⟩
  | _ => cases h

/-- A topic that is held takes every frame that is not too long, on the load topic a trusted author's. -/
theorem message_held {evs : List (Event π τ)} {p : π} {t : τ} {s : Sink} (hheld : Held C p t s evs) {author : π}
    {data : Bytes} (hsize : oversize data = false) (hload : t = C.loadTopic → Trusted C author) :
    t ∈ (run C evs).topics ∧ (run C evs).validate C author t data = true := by
  have I := Carried.run C evs
  have hpos : 0 < (run C evs).picks.holders t :=
    List.length_pos_of_mem (OrdMap.get_eq_some.mp ((sinkOf_run evs p t s).mpr hheld))
  have hmem := I.held t hpos
  obtain ⟨v, hv⟩ := Option.isSome_iff_exists.mp (I.valid t hmem)
  refine ⟨hmem, ?_⟩
  rw [validate, hv]
  cases v with
  | frame => simp [Validator.accepts, hsize]
  | load => exact Validator.load_accepts.mpr ⟨hsize, hload (apart_run evs t hv)⟩

/-- A frame that arrives goes to every peer that holds the topic but its author. -/
theorem delivers_message {evs : List (Event π τ)} {t : τ} {author : π} {data : Bytes} (now : Time)
    (hne : ((run C evs).picks.sinks t).entries ≠ []) (hsize : oversize data = false)
    (hload : t = C.loadTopic → Trusted C author) : delivers ((run C evs).act C (.message author t data now)).2 =
      (((run C evs).picks.sinks t).entries.filter fun e => e.1 ≠ author).map fun e => (e.2, author, t, data) := by
  obtain ⟨⟨p, s⟩, hin⟩ := List.exists_mem_of_ne_nil _ hne
  have hheld := (sinkOf_run evs p t s).mp (OrdMap.get_eq_some.mpr hin)
  rw [act, message, if_pos (message_held hheld hsize hload)]
  show delivers (_ ++ _) = _
  rw [delivers_append, delivers_cached, List.nil_append, delivers_deliverTo]
  exact (congrArg _ (sinksFor_except _ t author)).trans (List.map_map ..)

/-- So does a PUSH when its publish is through. -/
theorem delivers_pushed {w : Node π τ} {k : Nat} {u : Push π τ} (hu : w.pushing[k]? = some u) (n : Nat) (now : Time) :
    delivers (w.act C (.pushed k n now)).2 =
      ((w.picks.sinks u.topic).entries.filter fun e => e.1 ≠ u.peer).map fun e => (e.2, u.peer, u.topic, u.data) := by
  rw [act, pushed, hu]
  dsimp only
  rw [delivers_append, delivers_deliverTo, sinksFor_except, List.map_map]
  exact List.append_nil _

/-- **Over every run, a topic is delivered to one stream for each peer that holds it: the one of its latest PICK that
was answered PICKED, while that was not dropped, closed or picked anew. Each frame that arrives is written to each of
these once but the author's, each PUSH as well when its publish is through, and the ACK counts them; and no stream is
written a frame of a topic that it does not hold.** -/
theorem delivered (C : Config π τ) (evs : List (Event π τ)) (t : τ) : ∃ es : List (π × Sink),
    (es.map Prod.fst).Nodup ∧ (∀ p s, (p, s) ∈ es ↔ Held C p t s evs) ∧
    (∀ author data now, es ≠ [] → oversize data = false → (t = C.loadTopic → Trusted C author) →
      delivers ((run C evs).act C (.message author t data now)).2 =
        (es.filter fun e => e.1 ≠ author).map fun e => (e.2, author, t, data)) ∧
    (∀ (k n : Nat) (now : Time) (u : Push π τ), (run C evs).pushing[k]? = some u → u.topic = t →
      delivers ((run C evs).act C (.pushed k n now)).2 =
        ((es.filter fun e => e.1 ≠ u.peer).map fun e => (e.2, u.peer, t, u.data)) ∧
      .ack u.sink t (n + (es.filter fun e => e.1 ≠ u.peer).length) ∈ ((run C evs).act C (.pushed k n now)).2) ∧
    ∀ e s author data, (s, author, t, data) ∈ delivers ((run C evs).act C e).2 → ∃ p, Held C p t s (evs ++ [e]) := by
  obtain ⟨hnodup, hmem, -⟩ := Picks.sinksFor_eq (run C evs).picks t none
  refine ⟨((run C evs).picks.sinks t).entries, hnodup, fun p s => (hmem p s).trans (sinkOf_run evs p t s), ?_, ?_, ?_⟩
  · exact fun author data now => delivers_message now
  · rintro k n now u hu rfl
    refine ⟨delivers_pushed hu n now, ?_⟩
    rw [act, pushed, hu]
    dsimp only
    rw [sinksFor_except, List.length_map]
    exact List.mem_append_right _ List.mem_cons_self
  · exact fun e s author data h => held_of_deliver (mem_delivers.mp h)

end Node

/-! ## What is read of it -/

open Utf8 (encode mark)
open Message (wrap origin isTagged unwrap)

/-- What the handler of a topic makes of the bytes of a stream: the topic, the sender and the frame. -/
def handled (bytes : Bytes) : Option (List Char × List Char × Bytes) :=
  match decodeFrame bytes with
  | some (.deliver sender topic data) => (origin sender data).map fun r => (topic, r)
  | _ => none

/-- What the streams carry of what a node writes, and what is made of it. -/
def read (outs : List (Out (List Char) (List Char))) : List (Sink × Option (List Char × List Char × Bytes)) :=
  (Node.delivers outs).map fun f => (f.1, (encodeDeliver f.2.1 f.2.2.1 f.2.2.2).bind handled)

/-- A sender that the envelope takes is read back from it, whatever the transport says. -/
theorem origin_wrap {self : List Char} {frame data : Bytes} (hmark : self.head? ≠ some mark)
    (h : wrap (encode self) frame = .ok data) (sender : List Char) : origin sender data = some (self, frame) := by
  rw [wrap] at h
  split at h
  · cases h
  · next hfits =>
    cases h
    rw [not_or] at hfits
    have hlen : (UInt8.ofNat (encode self).length).toNat = (encode self).length :=
      UInt8.toNat_ofNat_of_lt' (Nat.lt_succ_of_le (not_lt.mp hfits.2))
    have hne : UInt8.ofNat (encode self).length ≠ 0 := fun hzero =>
      hfits.1 (hlen.symm.trans (congrArg UInt8.toNat hzero))
    have htag : isTagged (Message.TAG :: UInt8.ofNat (encode self).length :: (encode self ++ frame)) = true := by
      simp [isTagged]
    rw [origin, if_pos htag, unwrap, if_pos htag]
    dsimp only [List.drop]
    rw [hlen, if_neg, List.take_left' rfl, List.drop_left' rfl, Utf8.decode_encode hmark]
    rw [not_or, List.length_append]
    exact ⟨hne, by omega⟩

theorem handled_deliver {author topic self : List Char} {frame data : Bytes} (hauthor : Named (encode author))
    (hauthorMark : author.head? ≠ some mark) (htopic : Named (encode topic)) (htopicMark : topic.head? ≠ some mark)
    (hmark : self.head? ≠ some mark) (h : wrap (encode self) frame = .ok data) :
    (encodeDeliver author topic data).bind handled = some (topic, self, frame) := by
  obtain ⟨bs, hbs⟩ := (encodes_total hauthor htopic data 0).2.2.2.2.1
  rw [hbs, Option.bind_some, handled, decodeFrame_of_lies (Encodes.deliver hbs).lies ⟨hauthorMark, htopicMark⟩]
  show (origin author data).map _ = _
  rw [origin_wrap hmark h]
  rfl

/-- **A frame that a client puts its name on and pushes is read by every other peer that holds the topic, once for each,
with that name and the frame unchanged: when the publish is through, by those of this relay, and where it arrives from
another relay, by those there.** -/
theorem read_as_published {C : Config (List Char) (List Char)} {author topic self : List Char} {frame data : Bytes}
    (hauthor : Named (encode author)) (hauthorMark : author.head? ≠ some mark) (htopic : Named (encode topic))
    (htopicMark : topic.head? ≠ some mark) (hmark : self.head? ≠ some mark)
    (hwrap : wrap (encode self) frame = .ok data) (hsize : oversize data = false) (hload : topic ≠ C.loadTopic)
    (evs : List (Event (List Char) (List Char))) :
    (encodePush topic data).bind decodeFrame = some (.push topic data) ∧
    ∃ es : List (List Char × Sink), (es.map Prod.fst).Nodup ∧ (∀ p s, (p, s) ∈ es ↔ Held C p topic s evs) ∧
      (∀ (k n : Nat) (now : Time) (sink : Sink), (Node.run C evs).pushing[k]? = some ⟨author, sink, topic, data⟩ →
        read ((Node.run C evs).act C (.pushed k n now)).2 =
          (es.filter fun e => e.1 ≠ author).map fun e => (e.2, some (topic, self, frame))) ∧
      ∀ now, es ≠ [] → read ((Node.run C evs).act C (.message author topic data now)).2 =
        (es.filter fun e => e.1 ≠ author).map fun e => (e.2, some (topic, self, frame)) := by
  have hread : (encodeDeliver author topic data).bind handled = some (topic, self, frame) :=
    handled_deliver hauthor hauthorMark htopic htopicMark hmark hwrap
  obtain ⟨hnodup, hmem, -⟩ := Picks.sinksFor_eq (Node.run C evs).picks topic none
  obtain ⟨bs, hbs⟩ := (encodes_total hauthor htopic data 0).2.2.2.2.2.1
  refine ⟨?_, ((Node.run C evs).picks.sinks topic).entries, hnodup,
    fun p s => (hmem p s).trans (Node.sinkOf_run evs p topic s), ?_, ?_⟩
  · rw [hbs, Option.bind_some, decodeFrame_of_lies (Encodes.push hbs).lies htopicMark]
  · intro k n now sink hu
    rw [read, Node.delivers_pushed hu n now, List.map_map]
    exact List.map_congr_left fun e _ => congrArg (Prod.mk e.2) hread
  · intro now hne
    rw [read, Node.delivers_message now hne hsize fun h => absurd h hload, List.map_map]
    exact List.map_congr_left fun e _ => congrArg (Prod.mk e.2) hread

/-- A peer holds the topic, and another one pushes a frame under its name. -/
theorem read_as_published_sample :
    let C : Config (List Char) (List Char) := ⟨10, 10, 0, false, [], ['r'], ['l'], fun _ => none⟩
    let evs : List (Event (List Char) (List Char)) :=
      [.pick ['b'] 7 ['t'] 0, .push ['a'] 3 ['t'] [0xE1, 1, 97, 0x10, 5]]
    ∃ es : List (List Char × Sink), (['b'], 7) ∈ es ∧ read ((Node.run C evs).act C (.pushed 0 1 5)).2 =
      (es.filter fun e => e.1 ≠ ['a']).map fun e => (e.2, some (['t'], ['a'], [0x10, 5])) := by
  intro C evs
  obtain ⟨-, es, -, hheld, hpushed, -⟩ := @read_as_published C ['a'] ['t'] ['a'] [0x10, 5] [0xE1, 1, 97, 0x10, 5]
    (by decide) (by decide) (by decide) (by decide) (by decide) rfl (by decide) (by decide) evs
  exact ⟨es, (hheld _ _).mpr ((Node.sinkOf_run evs _ _ _).mp (by decide)), hpushed 0 1 5 3 rfl⟩

end EncedoChat.Relay
