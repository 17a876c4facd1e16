import Mathlib.Logic.Function.Basic
import EncedoChat.Lib.Run
import EncedoChat.Relay.Share

/-!
# What is remembered of a topic

`lastSeen` of `relay.mjs` is written for the topics the relay joins and for those its frames are on, and cleared where the
sweep evicts a topic it carries. A PUSH does not make the relay join its topic.
-/

namespace EncedoChat.Relay

variable {π τ : Type} [DecidableEq π] [DecidableEq τ]

/-- `Math.max(2_000, Math.min(30_000, Math.floor(IDLE_TTL / 2)))` -/
def SWEEP_MS (idleTtl : Time) : Time := max 2000 (min 30000 (idleTtl / 2))

namespace Event

/-- When the handler runs. -/
def stamp : Event π τ → Option Time
  | pick _ _ _ now | pushed _ _ now | subscription _ _ _ now | message _ _ _ now | sweep now | announce _ now => some now
  | drop _ _ _ | push _ _ _ _ | bye _ _ | disconnect _ | setUpLoad => none

/-- The topic something goes on at. -/
def topicOf (w : Node π τ) : Event π τ → Option τ
  | pick _ _ topic _ | subscription _ topic _ _ | message _ topic _ _ => some topic
  | pushed k _ _ => (w.pushing[k]?).map Push.topic
  | _ => none

end Event

/-- A node, the clock, and when something last went on at a topic. -/
structure Timed (π τ : Type) where
  node : Node π τ
  now : Time
  activity : τ → Option Time

namespace Timed

def start : Timed π τ := ⟨.start, 0, fun _ => none⟩

def act (C : Config π τ) (w : Timed π τ) (e : Event π τ) : Timed π τ where
  node := (w.node.act C e).1
  now := e.stamp.getD w.now
  activity :=
    match e.topicOf w.node, e.stamp with
    | some t, some now => Function.update w.activity t (some now)
    | _, _ => w.activity

/-- Every entry is of a topic that is carried, or was active within the time to live and a sweep. -/
def Bounded (C : Config π τ) (w : Timed π τ) : Prop :=
  ∀ t, w.node.lastSeen.has t = true →
    t ∈ w.node.topics ∨ ∃ a, w.activity t = some a ∧ w.now - a ≤ C.idleTtl + SWEEP_MS C.idleTtl

/-- When a PUSH is through, the relay carries its topic. -/
def OnCarried (w : Timed π τ) : Event π τ → Prop
  | .pushed k _ _ => ∀ u, w.node.pushing[k]? = some u → u.topic ∈ w.node.topics
  | _ => True

end Timed

namespace Node

variable {C : Config π τ} {w : Node π τ} {t : τ}

/-- Nothing is remembered of a topic that is not carried. -/
def Tidy (w : Node π τ) : Prop := ∀ t, w.lastSeen.has t = true → t ∈ w.topics

theorem has_seen {topic : τ} {now : Time} : (w.seen topic now).lastSeen.has t = (decide (t = topic) || w.lastSeen.has t) := by
  rw [seen, OrdMap.has, OrdMap.get_set]
  by_cases ht : t = topic
  · simp [ht]
  · simp [ht, OrdMap.has]

theorem Tidy.seen (h : w.Tidy) {topic : τ} (ht : topic ∈ w.topics) (now : Time) : (w.seen topic now).Tidy := by
  intro t hhas
  rw [has_seen, Bool.or_eq_true, decide_eq_true_eq] at hhas
  rcases hhas with rfl | hhas
  · exact ht
  · exact h t hhas

theorem Tidy.join (h : w.Tidy) (topic : τ) : (w.join topic).Tidy := fun t hhas => List.mem_append_left _ (h t hhas)

theorem Tidy.congr {w' : Node π τ} (h : w.Tidy) (hseen : w'.lastSeen = w.lastSeen) (htopics : w'.topics = w.topics) :
    w'.Tidy := by
  rwa [Tidy, hseen, htopics]

theorem Tidy.evict (h : w.Tidy) (topic : τ) : (w.evict topic).Tidy := by
  intro t hhas
  rw [Node.evict, OrdMap.has, OrdMap.get_delete] at hhas
  by_cases ht : t = topic
  · simp [ht] at hhas
  · rw [if_neg ht] at hhas
    exact List.mem_filter.mpr ⟨h t hhas, decide_eq_true ht⟩

theorem Tidy.sweep (h : w.Tidy) (now : Time) : (w.sweep C now).Tidy := by
  rw [Node.sweep]
  generalize w.topics = ts
  induction ts generalizing w with
  | nil => exact h
  | cons t ts ih =>
      apply ih
      rw [sweepTopic]
      split
      · exact h.evict t
      · exact h

theorem Tidy.pick (h : w.Tidy) (peer : π) (sink : Sink) (topic : τ) (now : Time) :
    (w.pick C peer sink topic now).1.Tidy := by
  rw [Node.pick]
  split
  · exact h.congr rfl rfl
  · by_cases hin : topic ∈ w.topics
    · simp only [if_pos hin]
      exact (h.seen hin now).congr rfl rfl
    · simp only [if_neg hin]
      exact ((h.join topic).seen (List.mem_append_right _ List.mem_cons_self) now).congr rfl rfl

theorem Tidy.subscription (h : w.Tidy) (peer : π) (topic : τ) (subscribe : Bool) (now : Time) :
    (w.subscription C peer topic subscribe now).Tidy := by
  rw [Node.subscription]
  split
  · split
    · dsimp only
      split
      · split
        · have hquota : ({ w with quota := (w.granted C peer topic).2 } : Node π τ).Tidy := h.congr rfl rfl
          exact (hquota.join topic).seen (List.mem_append_right _ List.mem_cons_self) now
        · exact h.congr rfl rfl
      · exact h.congr rfl rfl
    · exact h
  · exact h.congr rfl rfl

theorem Tidy.message (h : w.Tidy) (author : π) (topic : τ) (data : Bytes) (now : Time) :
    (w.message C author topic data now).1.Tidy := by
  rw [Node.message]
  split
  · rename_i hok
    exact (h.seen hok.1 now).congr rfl rfl
  · exact h

theorem Tidy.setUpLoad (h : w.Tidy) : (w.setUpLoad C).Tidy := by
  rw [Node.setUpLoad]
  split
  · exact h
  · intro t hhas
    dsimp only
    split
    · exact h t hhas
    · exact List.mem_append_left _ (h t hhas)

/-- The sweep looks at the topics that are carried, and at nothing else. -/
theorem get_sweep (ht : t ∉ w.topics) (now : Time) : (w.sweep C now).lastSeen.get t = w.lastSeen.get t ∧
    t ∉ (w.sweep C now).topics := by
  rw [Node.sweep]
  have hloop : ∀ (ts : List τ) (x : Node π τ), t ∉ ts → t ∉ x.topics →
      (ts.foldl (sweepTopic C now) x).lastSeen.get t = x.lastSeen.get t ∧ t ∉ (ts.foldl (sweepTopic C now) x).topics := by
    intro ts
    induction ts with
    | nil => exact fun x _ hx => ⟨rfl, hx⟩
    | cons t' ts ih =>
        intro x hts hx
        rw [List.mem_cons, not_or] at hts
        have hstep : (sweepTopic C now x t').lastSeen.get t = x.lastSeen.get t ∧ t ∉ (sweepTopic C now x t').topics := by
          rw [sweepTopic]
          split
          · exact ⟨OrdMap.get_delete_ne _ hts.1, fun hin => hx (List.mem_filter.mp hin).1⟩
          · exact ⟨rfl, hx⟩
        obtain ⟨hget, hout⟩ := ih _ hts.2 hstep.2
        exact ⟨hget.trans hstep.1, hout⟩
  exact hloop w.topics w ht ht

end Node

namespace Timed

variable {C : Config π τ} {w : Timed π τ}

theorem tidy_act (h : w.node.Tidy) (e : Event π τ) (hok : w.OnCarried e) : (w.act C e).node.Tidy := by
  cases e with
  | pick peer sink topic now => exact h.pick peer sink topic now
  | drop peer sink topic => exact h.congr rfl rfl
  | push peer sink topic data =>
      change (w.node.push C peer sink topic data).1.Tidy
      rw [Node.push]
      split
      · exact h
      · exact h.congr rfl rfl
  | pushed k recipients now =>
      change (w.node.pushed k recipients now).1.Tidy
      rw [Node.pushed]
      split
      · exact h
      · rename_i u hu
        exact (h.seen (hok u hu) now).congr rfl rfl
  | bye peer sink => exact h.congr rfl rfl
  | subscription peer topic subscribe now => exact h.subscription peer topic subscribe now
  | message author topic data now => exact h.message author topic data now
  | sweep now => exact h.sweep now
  | disconnect peer => exact h.congr rfl rfl
  | setUpLoad => exact h.setUpLoad
  | announce mine now => exact h.congr rfl rfl

theorem tidy_start : (start : Timed π τ).node.Tidy := fun t h => by cases h

/-- A PUSH on a topic that is not carried leaves an entry that outlives the time to live and the next sweep. -/
theorem not_bounded_of_not_onCarried {e : Event π τ} (h : ¬w.OnCarried e) :
    ∃ now, ¬((w.act C e).act C (.sweep now)).Bounded C := by
  cases e with
  | pushed k recipients t₀ =>
      simp only [OnCarried, not_forall] at h
      obtain ⟨u, hu, hout⟩ := h
      have hnode : (w.act C (.pushed k recipients t₀)).node =
          { w.node.seen u.topic t₀ with pushing := w.node.pushing.eraseIdx k } := by
        change (w.node.pushed k recipients t₀).1 = _
        rw [Node.pushed, hu]
      have hactive : (w.act C (.pushed k recipients t₀)).activity u.topic = some t₀ := by
        simp [act, Event.topicOf, Event.stamp, hu]
      refine ⟨t₀ + C.idleTtl + SWEEP_MS C.idleTtl + 1, fun hb => ?_⟩
      generalize w.act C (.pushed k recipients t₀) = v at hnode hactive hb
      have hv : u.topic ∉ v.node.topics := by
        rw [hnode]
        exact hout
      obtain ⟨hget, hgone⟩ := Node.get_sweep (C := C) hv (t₀ + C.idleTtl + SWEEP_MS C.idleTtl + 1)
      have hhas : (v.act C (.sweep (t₀ + C.idleTtl + SWEEP_MS C.idleTtl + 1))).node.lastSeen.has u.topic = true := by
        apply OrdMap.has_of_get (v := t₀)
        refine hget.trans ?_
        rw [hnode]
        exact OrdMap.get_set_self ..
      rcases hb u.topic hhas with hin | ⟨a, ha, hle⟩
      · exact hgone hin
      · have ha : v.activity u.topic = some a := ha
        rw [hactive, Option.some_inj] at ha
        subst ha
        have hlate : ∀ a b c : Int, ¬a + b + c + 1 - a ≤ b + c := by
          intro a b c
          omega
        exact hlate _ _ _ hle
  | _ => exact absurd trivial h

/-- **In every run in which each PUSH is on a topic that is carried when it is through, what is remembered is of topics that
are carried; and a PUSH that is not goes on to a state with an entry of a topic neither carried nor active.** -/
theorem lastSeen_bounded (C : Config π τ) :
    (∀ w, Reach (act C) OnCarried start w → w.Bounded C) ∧
    ∀ w e, Reach (act C) (fun _ _ => True) start w → ¬OnCarried w e →
      ∃ now, ¬((w.act C e).act C (.sweep now)).Bounded C := by
  constructor
  · intro w hrun t hhas
    exact .inl (hrun.invariant (I := fun w => w.node.Tidy) tidy_start (fun _ e h hok => tidy_act h e hok) t hhas)
  · intro w e _ h
    exact not_bounded_of_not_onCarried h

/-- A push to a topic that was picked. -/
theorem lastSeen_bounded_sample :
    (([.pick 1 5 7 0, .push 1 5 7 [], .pushed 0 0 1000] : List (Event Nat Nat)).foldl (act Watched.small) start).Bounded
      Watched.small := by
  refine (lastSeen_bounded Watched.small).1 _ (Admits.reach .start ⟨trivial, trivial, ?_, trivial⟩)
  intro u hu
  obtain rfl : u = ⟨1, 5, 7, []⟩ := Option.some.inj (hu.symm.trans rfl)
  decide

/-- A client pushes to a topic that nobody has asked for. -/
theorem lastSeen_unbounded : ¬∀ w, Reach (act Watched.small) (fun _ _ => True) start w → w.Bounded Watched.small := by
  intro h
  have hrun : Reach (act Watched.small) (fun _ _ => True) start
      ([.push 1 5 7 [], .pushed 0 0 1000, .sweep 31000, .sweep 61000, .sweep 91000, .sweep 121000, .sweep 151000,
        .sweep 181000].foldl (act Watched.small) start) := Admits.reach .start (by simp [Admits])
  rcases h _ hrun 7 (by decide) with hin | ⟨a, ha, hle⟩
  · revert hin
    decide
  · have hactive : a = 1000 := Option.some.inj (ha.symm.trans (by decide))
    subst hactive
    revert hle
    decide

end Timed

end EncedoChat.Relay
