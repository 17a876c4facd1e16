import Mathlib.Logic.Function.Basic
import EncedoChat.Lib.Run
import EncedoChat.SelfSession.Steps

/-!
# Two windows of one identity

What the two publish may be lost, repeated, late and out of order, and others may send what they like: any frame may
reach any window at any time. What is kept besides the windows is who published a farewell, what reached which watch,
and who was told to stand down.
-/

namespace EncedoChat.SelfSession

open Presence (Time Date activeDatesForOffset)
open Window (Config)

inductive Side where
  | one
  | two
  deriving DecidableEq

def Side.other : Side → Side
  | one => two
  | two => one

/-- The last announce of a window that stands down. -/
structure Farewell (M : Mac) (τ : Type) where
  topic : τ
  key : M.Key
  nonce : String
  ts : Time
  deriving DecidableEq

def Farewell.frame {M : Mac} {τ : Type} (f : Farewell M τ) (peer : String) : Json :=
  buildAnnounce M peer f.key f.nonce f.ts

/-- A frame that the transport handed to a watch. -/
structure Arrival (M : Mac) (τ : Type) where
  side : Side
  watch : Nat
  topic : τ
  key : M.Key
  frm : String
  data : Option Json
  now : Time
  /-- the farewells published by then -/
  sent : List (Side × Farewell M τ)

structure Pair (M : Mac) (τ : Type) where
  windows : Side → Window M τ
  farewells : List (Side × Farewell M τ)
  arrivals : List (Arrival M τ)
  told : List (Side × String)

variable {M : Mac} {τ : Type} [DecidableEq τ]

namespace Window

/-- The farewell that goes out. -/
def farewellOf (w : Window M τ) : Event τ → Option (Farewell M τ)
  | .farewell i nonce ts =>
    (w.objs.get i).bind fun v =>
      match v.leaving with
      | some (_, .building) => some ⟨v.topic, v.macKey, nonce, ts⟩
      | _ => none
  | _ => none

/-- The watches that a frame comes to: those on its topic. -/
def arrivalsOf (x : Side) (sent : List (Side × Farewell M τ)) (w : Window M τ) : Event τ → List (Arrival M τ)
  | .message topic frm data now =>
    (w.objs.entries.filter fun e => e.2.running = true ∧ topic = e.2.topic).map fun e =>
      ⟨x, e.1, topic, e.2.macKey, frm, data, now, sent⟩
  | _ => []

theorem side_of_arrival {x : Side} {sent : List (Side × Farewell M τ)} {w : Window M τ} {e : Event τ} {a : Arrival M τ}
    (h : a ∈ w.arrivalsOf x sent e) : a.side = x := by
  cases e with
  | message topic frm data now =>
      obtain ⟨_, -, rfl⟩ := List.mem_map.mp h
      rfl
  | _ => cases h

/-- It is published, on the topic of its watch. -/
theorem farewellOf_published {C : Config M τ} {me : String} {w : Window M τ} {e : Event τ} {f : Farewell M τ}
    (h : w.farewellOf e = some f) : Out.publish f.topic me (f.frame me) ∈ (w.step C me e).2 := by
  cases e with
  | farewell i nonce ts =>
      rw [farewellOf] at h
      obtain ⟨v, hv, hout⟩ := Option.bind_eq_some_iff.mp h
      obtain ⟨⟨byPeer, hl⟩, hf⟩ :
          (∃ byPeer, v.leaving = some (byPeer, .building)) ∧ f = ⟨v.topic, v.macKey, nonce, ts⟩ := by
        split at hout
        · rename_i byPeer hl
          exact ⟨⟨byPeer, hl⟩, (Option.some.inj hout).symm⟩
        · cases hout
      rw [step, Window.farewell, hv, hf]
      dsimp only
      rw [hl]
      exact List.mem_singleton_self _
  | _ => cases h

end Window

namespace Pair

variable (C : Config M τ) (peer : Side → String)

def start : Pair M τ := ⟨fun _ => .start, [], [], []⟩

def act (s : Pair M τ) (a : Side × Event τ) : Pair M τ :=
  let w := s.windows a.1
  let r := w.step C (peer a.1) a.2
  { windows := Function.update s.windows a.1 r.1
    farewells := s.farewells ++ (w.farewellOf a.2).toList.map (a.1, ·)
    arrivals := s.arrivals ++ w.arrivalsOf a.1 s.farewells a.2
    told := s.told ++ (Window.notices r.2).map (a.1, ·) }

/-- A watch that has heard another window is not rotated off before it has settled. -/
def Keeps (s : Pair M τ) (a : Side × Event τ) : Prop :=
  (s.windows a.1).Rotates C (Watch.Idle (peer a.1)) a.2

/-- A farewell that reaches the other does so within the replay window. -/
def InTime (s : Pair M τ) (a : Side × Event τ) : Prop :=
  ∀ f now, (a.1.other, f) ∈ s.farewells →
    a.2 = .message f.topic (peer a.1.other) (some (f.frame (peer a.1.other))) now → |now - f.ts| ≤ REPLAY_WINDOW_MS

def Meets (s : Pair M τ) (a : Side × Event τ) : Prop := s.Keeps C peer a ∧ s.InTime peer a

/-- The farewell of the other window, as it came to a watch of its day. -/
structure Reaches (a : Arrival M τ) (f : Farewell M τ) : Prop where
  sent : (a.side.other, f) ∈ a.sent
  topic : a.topic = f.topic
  key : a.key = f.key
  frm : a.frm = peer a.side.other
  data : a.data = some (f.frame (peer a.side.other))

/-- A valid announce of another window came to one of the watches. -/
def Warned (s : Pair M τ) (x : Side) : Prop :=
  ∃ a ∈ s.arrivals, a.side = x ∧ a.frm ≠ peer x ∧
    ∃ p nonce, verifyAnnounce M a.data a.key a.now = .ok (p, nonce) ∧ p ≠ peer x

variable {C peer} {s : Pair M τ}

theorem Warned.act {x : Side} (h : s.Warned peer x) (a : Side × Event τ) : (s.act C peer a).Warned peer x := by
  obtain ⟨b, hb, hrest⟩ := h
  exact ⟨b, List.mem_append_left _ hb, hrest⟩

/-! ## Nobody stands down unwarned, or twice -/

/-- What holds of a window in every run. -/
structure Sober (peer : Side → String) (s : Pair M τ) (x : Side) : Prop where
  ids : (s.windows x).Ids
  leaves : ∀ i v, (s.windows x).objs.get i = some v → v.Leaves
  heard : ∀ i v, (s.windows x).objs.get i = some v → v.Heard (peer x) → s.Warned peer x
  taken : (s.windows x).taken = true → s.Warned peer x
  told : s.told.filter (·.1 = x) = [] ∧ (s.windows x).taken = false ∨
    (∃ p, s.told.filter (·.1 = x) = [(x, p)]) ∧ (s.windows x).taken = true

omit [DecidableEq τ] in
theorem Sober.start (x : Side) : (start : Pair M τ).Sober peer x where
  ids i v h := by cases h
  leaves i v h := by cases h
  heard i v h := by cases h
  taken h := by cases h
  told := .inl ⟨rfl, rfl⟩

/-- The objects of a window after a step, from those before it and the frame it brought. -/
theorem heard_of_step {x : Side} (h : s.Sober peer x) (e : Event τ) {i : Nat} {v' : Watch M τ}
    (hv' : ((s.act C peer (x, e)).windows x).objs.get i = some v') (hheard : v'.Heard (peer x)) :
    (s.act C peer (x, e)).Warned peer x := by
  have hw : (s.act C peer (x, e)).windows x = ((s.windows x).step C (peer x) e).1 := Function.update_self ..
  rw [hw] at hv'
  obtain ⟨topic, frm, data, now, rfl⟩ | hsteps :=
    Window.message_or_steps (C := C) (peer x) .all h.ids (e := e) fun _ _ _ _ _ _ => trivial
  · obtain ⟨v, hv, rfl⟩ := Window.get_message.mp hv'
    obtain hold | ⟨hrun, htopic, hfrm, p, nonce, hval, hne⟩ := Watch.heard_of_message hheard
    · exact (h.heard i v hv hold).act _
    · refine ⟨⟨x, i, topic, v.macKey, frm, data, now, s.farewells⟩, List.mem_append_right _ ?_, rfl, hfrm, p, nonce, hval, hne⟩
      refine List.mem_map.mpr ⟨(i, v), List.mem_filter.mpr ⟨OrdMap.get_eq_some.mp hv, ?_⟩, rfl⟩
      exact decide_eq_true ⟨hrun, htopic⟩
  · obtain ⟨v, hv⟩ | ⟨topic, key, hm⟩ := hsteps.news i v' hv'
    · obtain ⟨u, hu, hm⟩ := hsteps.objs i v hv
      cases hu.symm.trans hv'
      exact (h.heard i v hv (hm.heard.mp hheard)).act _
    · obtain ⟨p, n, hmem, -⟩ | hn | hn | hn := hm.heard.mp hheard
      · cases hmem
      · exact absurd rfl hn
      · exact absurd rfl hn
      · cases hn

theorem Sober.act {x : Side} (h : s.Sober peer x) (a : Side × Event τ) : (s.act C peer a).Sober peer x := by
  obtain ⟨y, e⟩ := a
  by_cases hx : y = x
  · subst hx
    have hw : (s.act C peer (y, e)).windows y = ((s.windows y).step C (peer y) e).1 := Function.update_self ..
    have htold : (s.act C peer (y, e)).told.filter (·.1 = y) = s.told.filter (·.1 = y) ++
        (Window.notices ((s.windows y).step C (peer y) e).2).map (y, ·) := by
      rw [Pair.act, List.filter_append, List.filter_map]
      simp [Function.comp_def]
    have hnews := Window.step_notices (C := C) (peer y) (s.windows y) e
    have hkind := Window.message_or_steps (C := C) (peer y) .all h.ids (e := e) fun _ _ _ _ _ _ => trivial
    refine ⟨?_, ?_, fun i v hv hheard => heard_of_step h e hv hheard, ?_, ?_⟩
    · rw [hw]
      obtain ⟨topic, frm, data, now, rfl⟩ | hsteps := hkind
      · intro i v hv
        obtain ⟨u, hu, -⟩ := Window.get_message.mp hv
        exact h.ids i u hu
      · exact hsteps.ids h.ids
    · rw [hw]
      obtain ⟨topic, frm, data, now, rfl⟩ | hsteps := hkind
      · intro i v hv
        obtain ⟨u, hu, rfl⟩ := Window.get_message.mp hv
        exact (h.leaves i u hu).message topic frm data now
      · intro i v' hv'
        obtain ⟨v, hv⟩ | ⟨topic, key, hm⟩ := hsteps.news i v' hv'
        · obtain ⟨u, hu, hm⟩ := hsteps.objs i v hv
          cases hu.symm.trans hv'
          exact hm.leaves (h.leaves i v hv)
        · exact hm.leaves fun hl => by rcases hl with hl | hl <;> cases hl
    · rw [hw]
      intro htaken
      obtain ⟨-, hsame⟩ | ⟨-, -, -, i, v, hv, hl⟩ := hnews
      · exact (h.taken (hsame ▸ htaken)).act _
      · exact (h.heard i v hv (.inr (.inr (.inr (h.leaves i v hv (.inr hl)))))).act _
    · rw [htold, hw]
      obtain ⟨hnone, hsame⟩ | ⟨hfree, htaken, ⟨p, hp⟩, -⟩ := hnews
      · rw [hnone, hsame, List.map_nil, List.append_nil]
        exact h.told
      · rw [hp, htaken]
        obtain ⟨hnil, -⟩ | ⟨-, hold⟩ := h.told
        · rw [hnil]
          exact .inr ⟨⟨p, rfl⟩, rfl⟩
        · cases hfree.symm.trans hold
  · have hw : (s.act C peer (y, e)).windows x = s.windows x := Function.update_of_ne (Ne.symm hx) ..
    have htold : (s.act C peer (y, e)).told.filter (·.1 = x) = s.told.filter (·.1 = x) := by
      rw [Pair.act, List.filter_append, List.filter_map]
      simp [Function.comp_def, hx]
    refine ⟨hw ▸ h.ids, hw ▸ h.leaves, fun i v hv hheard => ?_, fun htaken => ?_, ?_⟩
    · exact (h.heard i v (hw ▸ hv) hheard).act _
    · exact (h.taken (hw ▸ htaken)).act _
    · rw [htold, hw]
      exact h.told

/-! ## Both stand down -/

/-- What holds of a window in a run that meets the condition. -/
structure Alert (peer : Side → String) (s : Pair M τ) (x : Side) : Prop where
  fine : ∀ i v, (s.windows x).objs.get i = some v → v.Fine (peer x) (s.windows x).Over
  reached : ∀ a ∈ s.arrivals, a.side = x → ∀ f, Reaches peer a f →
    ∃ v, (s.windows x).objs.get a.watch = some v ∧ v.Heard (peer x)

omit [DecidableEq τ] in
theorem Alert.start (x : Side) : (start : Pair M τ).Alert peer x where
  fine i v h := by cases h
  reached a h := by cases h

theorem fine_of_step {x : Side} (h : s.Alert peer x) (hids : (s.windows x).Ids) {e : Event τ}
    (hkeeps : s.Keeps C peer (x, e)) (i : Nat) {v' : Watch M τ}
    (hv' : ((s.windows x).step C (peer x) e).1.objs.get i = some v') :
    v'.Fine (peer x) ((s.windows x).step C (peer x) e).1.Over := by
  have hstop : Window.Stoppable (Watch.Idle (peer x) : Watch M τ → Prop) :=
    ⟨fun _ hidle => hidle, fun _ _ => .inr ⟨fun ⟨_, _, hmem, _⟩ => List.not_mem_nil hmem, rfl⟩⟩
  obtain ⟨topic, frm, data, now, rfl⟩ | hsteps := Window.message_or_steps (peer x) hstop hids hkeeps
  · obtain ⟨v, hv, rfl⟩ := Window.get_message.mp hv'
    exact (h.fine i v hv).message topic frm data now
  · obtain ⟨v, hv⟩ | ⟨topic, key, hm⟩ := hsteps.news i v' hv'
    · obtain ⟨u, hu, hm⟩ := hsteps.objs i v hv
      cases hu.symm.trans hv'
      exact hm.fine ((h.fine i v hv).mono hsteps.ended)
    · exact hm.fine (.start topic key)

/-- A watch that has heard another window goes on to have heard it. -/
theorem heard_stays {x : Side} (hids : (s.windows x).Ids) (e : Event τ) {i : Nat} {v : Watch M τ}
    (hv : (s.windows x).objs.get i = some v) (hheard : v.Heard (peer x)) :
    ∃ v', ((s.windows x).step C (peer x) e).1.objs.get i = some v' ∧ v'.Heard (peer x) := by
  obtain ⟨topic, frm, data, now, rfl⟩ | hsteps :=
    Window.message_or_steps (C := C) (peer x) .all hids (e := e) fun _ _ _ _ _ _ => trivial
  · exact ⟨_, Window.get_message.mpr ⟨v, hv, rfl⟩, hheard.message topic frm data now⟩
  · obtain ⟨v', hv', hm⟩ := hsteps.objs i v hv
    exact ⟨v', hv', hm.heard.mpr hheard⟩

/-- The farewell of the other window is heard by the watch it comes to. -/
theorem heard_of_arrival {x : Side} (hpeer : peer x.other ≠ peer x) (h : s.Alert peer x) {e : Event τ}
    (htime : s.InTime peer (x, e)) {a : Arrival M τ} (ha : a ∈ (s.windows x).arrivalsOf x s.farewells e)
    {f : Farewell M τ} (hf : Reaches peer a f) :
    ∃ v, ((s.windows x).step C (peer x) e).1.objs.get a.watch = some v ∧ v.Heard (peer x) := by
  cases e with
  | message topic frm data now =>
      obtain ⟨⟨i, v⟩, he, rfl⟩ := List.mem_map.mp ha
      obtain ⟨hmem, hok⟩ := List.mem_filter.mp he
      obtain ⟨hrun, htopic⟩ := of_decide_eq_true hok
      have hv := OrdMap.get_eq_some.mpr hmem
      obtain ⟨hsent, rfl, hkey, hfrm, hdata⟩ := hf
      dsimp only at hsent htopic hkey hfrm hdata hrun
      subst hfrm hdata
      refine ⟨_, Window.get_message.mpr ⟨v, hv, rfl⟩, ?_⟩
      have hgo : ¬(v.running = false ∨ v.done = true ∨ f.topic ≠ v.topic ∨ peer x.other = peer x) := by
        rw [hrun, ((h.fine i v hv).listens hrun).1]
        simp [htopic, hpeer]
      rw [Watch.onMessage, if_neg hgo]
      refine .inl ⟨peer x.other, f.nonce, List.mem_append_right _ (List.mem_singleton.mpr ?_), hpeer⟩
      rw [Farewell.frame, ← hkey]
      exact (verifyAnnounce_build M (htime f now hsent rfl)).symm
  | _ => cases ha

theorem Alert.act (hpeer : ∀ x : Side, peer x.other ≠ peer x) {x : Side} (hsober : s.Sober peer x)
    (h : s.Alert peer x) {a : Side × Event τ} (hok : s.Meets C peer a) : (s.act C peer a).Alert peer x := by
  obtain ⟨y, e⟩ := a
  by_cases hx : y = x
  · subst hx
    have hw : (s.act C peer (y, e)).windows y = ((s.windows y).step C (peer y) e).1 := Function.update_self ..
    refine ⟨fun i v hv => hw ▸ fine_of_step h hsober.ids hok.1 i (hw ▸ hv), fun a ha hside f hf => ?_⟩
    rw [hw]
    obtain hold | hnew := List.mem_append.mp ha
    · obtain ⟨v, hv, hheard⟩ := h.reached a hold hside f hf
      exact heard_stays hsober.ids e hv hheard
    · exact heard_of_arrival (hpeer y) h hok.2 hnew hf
  · have hw : (s.act C peer (y, e)).windows x = s.windows x := Function.update_of_ne (Ne.symm hx) ..
    refine ⟨fun i v hv => hw ▸ h.fine i v (hw ▸ hv), fun a ha hside f hf => ?_⟩
    rw [hw]
    obtain hold | hnew := List.mem_append.mp ha
    · exact h.reached a hold hside f hf
    · exact absurd ((Window.side_of_arrival hnew).symm.trans hside) hx

theorem sober (h : Reach (act C peer) (fun _ _ => True) start s) (x : Side) : s.Sober peer x :=
  h.invariant (I := fun t => t.Sober peer x) (.start x) fun _ a hs _ => hs.act a

theorem alert (hpeer : ∀ x : Side, peer x.other ≠ peer x) (h : Reach (act C peer) (Meets C peer) start s) (x : Side) :
    s.Alert peer x := by
  refine h.invariant' (I := fun t => t.Alert peer x) (.start x) fun t a ht hs hok => ?_
  exact hs.act hpeer (sober (ht.mono fun _ _ _ => trivial) x) hok

/-- Nobody is told to stand down twice, or without having heard another window. And in a run where no watch that has
heard one is rotated off before it has settled, and farewells come in time, whom a farewell reaches stands down too: it
was told, or closed by itself, or what the watch that heard it waits for takes it over. -/
theorem stand_down_together (hpeer : peer .one ≠ peer .two) :
    (Reach (act C peer) (fun _ _ => True) start s → ∀ x,
      (s.told.filter (·.1 = x)).length ≤ 1 ∧ (s.told.filter (·.1 = x) ≠ [] → s.Warned peer x)) ∧
    (Reach (act C peer) (Meets C peer) start s → ∀ a ∈ s.arrivals, ∀ f, Reaches peer a f →
      s.told.filter (·.1 = a.side) ≠ [] ∨ (s.windows a.side).stopped = true ∨
        (s.windows a.side).Ends C (peer a.side) a.watch) := by
  have hpeers : ∀ x : Side, peer x.other ≠ peer x := by
    rintro (_ | _)
    · exact hpeer.symm
    · exact hpeer
  refine ⟨fun h x => ?_, fun h a ha f hf => ?_⟩
  · obtain ⟨hnil, -⟩ | ⟨⟨p, hone⟩, htaken⟩ := (sober h x).told
    · rw [hnil]
      exact ⟨Nat.zero_le _, fun hne => absurd rfl hne⟩
    · rw [hone]
      exact ⟨le_rfl, fun _ => (sober h x).taken htaken⟩
  · obtain ⟨v, hv, hheard⟩ := (alert hpeers h a.side).reached a ha rfl f hf
    have hfine := (alert hpeers h a.side).fine _ v hv
    by_cases hover : (s.windows a.side).Over
    · obtain htaken | hstopped := hover
      · obtain ⟨-, hfree⟩ | ⟨⟨p, hone⟩, -⟩ := (sober (h.mono fun _ _ _ => trivial) a.side).told
        · cases hfree.symm.trans htaken
        · exact .inl (by rw [hone]; exact List.cons_ne_nil _ _)
      · exact .inr (.inl hstopped)
    · have hway := (hfine.onItsWay hheard).resolve_left hover
      exact .inr (.inr (Window.ends_of_onItsWay hv hfine hway hover))

/-! ## A window that goes on alone -/

/-- A MAC that anyone can make. -/
def openMac : Mac where
  Key := Unit
  sign _ _ := ""
  verify _ _ _ := true
  numText _ := ""
  verify_sign _ _ := rfl

def sampleConfig : Config openMac Int where
  deriveForDate d := (d, ())
  offsetMs := 0
  overlapMs := Presence.OVERLAP_MS

def sampleName : Side → String
  | .one => "one"
  | .two => "two"

/-- What window two says on the topic of the day before. -/
def sampleAnnounce : Json := buildAnnounce openMac "two" () "n2" 1799500

def sampleFarewell : Farewell openMac Int := ⟨-1, (), "n1", 1799800⟩

/-- Half an hour after the rotation, window two has only just begun to watch the day before when that day ends. -/
def lateRun : List (Side × Event Int) :=
  [(.one, .sync 0), (.one, .derived true), (.one, .derived true), (.one, .settle 0), (.one, .settle 1),
    (.two, .sync 1740500), (.two, .derived true), (.two, .derived true), (.two, .announced 1 "n2" 1799500),
    (.one, .message (-1) "two" (some sampleAnnounce) 1799600), (.one, .verified 1 0 1799600),
    (.one, .farewell 1 "n1" 1799800), (.one, .left 1),
    (.two, .message (-1) "one" (some (sampleFarewell.frame "one")) 1799900), (.two, .verified 1 0 1799900),
    (.two, .sync 1800500), (.two, .settle 0)]

def late : Pair openMac Int := lateRun.foldl (act sampleConfig sampleName) start

/-- The farewell of window one, as it comes to window two. -/
def lateArrival : Arrival openMac Int := late.arrivals.get ⟨1, by decide⟩

/-- The farewell reaches it, it is never told, and nothing of it is under way. -/
theorem late_goes_on : Reach (act sampleConfig sampleName) (fun _ _ => True) start late ∧
    (∃ a ∈ late.arrivals, a.side = .two ∧ ∃ f, Reaches sampleName a f ∧ |a.now - f.ts| ≤ REPLAY_WINDOW_MS) ∧
    late.told = [(.one, "two")] ∧ (late.windows .two).stopped = false ∧ (late.windows .two).syncing.isNone = true ∧
    ∀ e ∈ (late.windows .two).objs.entries,
      e.2.verifying.length = 0 ∧ e.2.settling = false ∧ e.2.leaving.isNone = true := by
  refine ⟨Admits.reach .start (.of_forall (fun _ _ => trivial) _ _), ?_, by decide +kernel, by decide +kernel,
    by decide +kernel, by decide +kernel⟩
  refine ⟨lateArrival, List.get_mem _ _, by decide, sampleFarewell, ?_, by decide⟩
  exact ⟨by decide +kernel, rfl, rfl, by decide +kernel, rfl⟩

/-- When a frame comes. -/
def comesAt : Event τ → Option Time
  | .message _ _ _ now => some now
  | _ => none

/-- Nothing is rotated off, and no frame comes long after a farewell. -/
def Prompt (C : Config M τ) (s : Pair M τ) (a : Side × Event τ) : Prop :=
  (∀ dates ∈ (s.windows a.1).ends C a.2, (s.windows a.1).expired dates = []) ∧
    ∀ f ∈ s.farewells, ∀ now ∈ comesAt a.2, |now - f.2.ts| ≤ REPLAY_WINDOW_MS

instance (C : Config M τ) (s : Pair M τ) (a : Side × Event τ) : Decidable (s.Prompt C a) :=
  inferInstanceAs (Decidable (_ ∧ _))

omit [DecidableEq τ] in
theorem Prompt.meets (peer : Side → String) {a : Side × Event τ} (h : s.Prompt C a) : s.Meets C peer a := by
  refine ⟨fun dates hdates o ho => ?_, fun f now hf he => h.2 (a.1.other, f) hf now (he ▸ rfl)⟩
  rw [h.1 dates hdates] at ho
  exact absurd ho List.not_mem_nil

/-- As `lateRun`, but window two settles before the day ends. -/
def promptRun : List (Side × Event Int) :=
  lateRun.take 15 ++ [(.two, .settle 0), (.two, .settle 1), (.two, .farewell 1 "n3" 1802900), (.two, .left 1)]

def prompt : Pair openMac Int := promptRun.foldl (act sampleConfig sampleName) start

def promptArrival : Arrival openMac Int := prompt.arrivals.get ⟨1, by decide⟩

theorem prompt_told : promptArrival.side = .two ∧ (prompt.told.filter (·.1 = promptArrival.side) ≠ [] ∨
    (prompt.windows promptArrival.side).stopped = true ∨
      (prompt.windows promptArrival.side).Ends sampleConfig (sampleName promptArrival.side) promptArrival.watch) := by
  have hrun : Admits (act sampleConfig sampleName) (Prompt sampleConfig) start promptRun := by decide +kernel
  have hreach := (Admits.reach .start hrun).mono fun _ _ h => Prompt.meets sampleName h
  refine ⟨by decide, (stand_down_together (by decide)).2 hreach _ (List.get_mem _ _) sampleFarewell ?_⟩
  exact ⟨by decide +kernel, rfl, rfl, by decide +kernel, rfl⟩

end Pair

end EncedoChat.SelfSession
