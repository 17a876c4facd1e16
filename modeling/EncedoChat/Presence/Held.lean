import EncedoChat.Lib.Run
import EncedoChat.Presence.Holders

/-!
# A held topic is subscribed

What a step lets go of, and what of it the transport loses: a watch asks for the rooms that are counted, a room asks
nobody. The count is right at every step; so only the others can be left deaf.
-/

namespace EncedoChat.Presence

/-- A room between `holdTopic` and `releaseTopic`. -/
def Room.counted {P T : Type} (r : Room P T) : Bool := r.opened && !r.released

namespace Session

variable {P T : Type} [DecidableEq P] [DecidableEq T] {C : Pairs P T} {s z : Session P T}

/-! ## What a step lets go of -/

/-- The holders whose topics a step unsubscribes. -/
inductive Teardown where
  /-- watches, all but the day handed over -/
  | watches (ws : List Nat) (handed : Option Date)
  /-- a watch's days but those it wants -/
  | days (w : Nat) (want : List Date)
  | rooms (is : List Nat)
  deriving DecidableEq

namespace Teardown

/-- The topics it lets go of. -/
def Lets (s : Session P T) (t : T) : Teardown → Prop
  | watches ws handed => ∃ w ∈ ws, ∃ d, some d ≠ handed ∧ s.holds (.day w d) = some t
  | days w want => ∃ d, d ∉ want ∧ s.holds (.day w d) = some t
  | rooms is => ∃ i ∈ is, ∃ r, s.rooms[i]? = some r ∧ r.topic = t

/-- The holders that it ends, or moves elsewhere. -/
def Ends : Teardown → Holder → Prop
  | watches ws _, .day w _ => w ∈ ws
  | days w want, .day w' d => w' = w ∧ d ∉ want
  | rooms is, .room i => i ∈ is
  | _, _ => False

/-- It asks `keep` first. -/
def Asks : Teardown → Prop
  | rooms _ => False
  | _ => True

def nothing : Teardown := rooms []

end Teardown

/-- `keep` knows of it. -/
def Known (s : Session P T) : Holder → Prop
  | .room i => ∃ r, s.rooms[i]? = some r ∧ r.counted = true
  | .day _ _ => False

/-- What a `sync` lets go of when it comes to its end. -/
def endOfSync (i : Nat) (slots : OrdMap Date (Option T)) (want todo : List Date) : Teardown :=
  if todo.all slots.has then .days i want else .nothing

variable (C) in
/-- What a call lets go of when it goes on. -/
def teardownOf (s : Session P T) (now : Time) (ok : Bool) : Call P → Teardown
  | .opening peer _ =>
    if ok then .watches (s.presence.get peer).toList (some (rendezvousDay now (C.offsetMs peer))) else .nothing
  | .leaving i => .rooms [i]
  | .moving i peer date =>
    if ok = true ∧ (s.rooms[i]?.any fun r => C.pairDay peer date ≠ r.topic) = true ∧ s.openConvs.get peer = some i then
      .rooms [i]
    else .nothing
  | .closing => .rooms s.registered
  | _ => .nothing

variable (C) in
def teardown (s : Session P T) : Event P → Teardown
  | .unwatch peer => .watches (s.presence.get peer).toList none
  | .sync i now =>
    match s.watches[i]? with
    | none => .nothing
    | some w =>
      let want := activeDatesForOffset now (C.offsetMs w.peer) C.overlapMs
      if w.stopped || w.sync.isSome then .nothing else endOfSync i w.slots want want
  | .derived i ok =>
    match s.watches[i]? with
    | none => .nothing
    | some w =>
      match w.sync with
      | none => .nothing
      | some (want, d, ds) =>
        if ok = false ∨ w.stopped = true then .nothing
        else endOfSync i (w.slots.set d (some (C.pairDay w.peer d))) want ds
  | .resume k now _ ok => (s.calls[k]?.map (s.teardownOf C now ok)).getD .nothing
  | .close => if s.closed then .nothing else .watches (s.presence.entries.map Prod.snd) none
  | _ => .nothing

variable (C) in
/-- The topic of a day that a watch takes up. -/
def takes (s : Session P T) : Event P → Option T
  | .derived i ok =>
    s.watches[i]?.bind fun w => w.sync.bind fun sync =>
      if ok = false ∨ w.stopped = true then none else some (C.pairDay w.peer sync.2.1)
  | _ => none

variable (C) in
/-- What a step lets go of no other live holder has, nor the day that the step takes up; a watch may let go of what a
counted room has. -/
structure Spares (s : Session P T) (a : Event P) : Prop where
  others : ∀ t, (s.teardown C a).Lets s t → ∀ h, s.holds h = some t →
    (s.teardown C a).Ends h ∨ (s.teardown C a).Asks ∧ s.Known h
  taken : ∀ t, (s.teardown C a).Lets s t → s.takes C a = some t → s.keep t = true

/-! ## Slots and watches that stop -/

omit [DecidableEq P] in
theorem dropDay_eq (t : T) :
    s.dropDay t = { s with subscribed := s.subscribed.filter fun u => s.keep u || decide (some t ≠ some u) } := by
  unfold dropDay
  split
  case isTrue hkeep =>
    have hall : ∀ u ∈ s.subscribed, (s.keep u || decide (some t ≠ some u)) = true := by
      intro u _
      by_cases hu : t = u
      · rw [← hu, hkeep, Bool.true_or]
      · simp [hu]
    rw [List.filter_eq_self.mpr hall]
  case isFalse hkeep =>
    have hiff : ∀ u ∈ s.subscribed, decide (u ≠ t) = (s.keep u || decide (some t ≠ some u)) := by
      intro u _
      by_cases hu : u = t
      · simp [hu, Bool.eq_false_iff.mpr hkeep]
      · simp [hu, Ne.symm hu]
    rw [unsubscribe, List.filter_congr hiff]

theorem dropSlots_eq (l : List (Date × Option T)) : s.dropSlots l =
    { s with subscribed := s.subscribed.filter fun t => s.keep t || l.all fun slot => slot.2 ≠ some t } := by
  induction l generalizing s with
  | nil =>
      have hall : s.subscribed.filter (fun t => s.keep t || [].all fun slot : Date × Option T => slot.2 ≠ some t)
          = s.subscribed := List.filter_eq_self.mpr fun t _ => by simp
      rw [hall]
      rfl
  | cons slot l ih =>
      obtain ⟨d, o⟩ := slot
      rw [dropSlots, List.foldl_cons, ← dropSlots]
      cases o with
      | none => rw [Option.elim_none, ih]; simp
      | some t =>
          rw [Option.elim_some, dropDay_eq, ih]
          simp only [keep, List.filter_filter, List.all_cons]
          congr 2
          funext u
          cases s.roomTopics.has u <;> simp [Bool.and_comm]

/-- A step as the transport and the holders see it. -/
structure Moves (s : Session P T) (τ : Teardown) (z : Session P T) : Prop where
  subscribed : ∀ t ∈ s.subscribed, t ∈ z.subscribed ∨ τ.Lets s t ∧ (τ.Asks → s.keep t = false)
  holds : ∀ h t, z.holds h = some t → s.holds h = some t ∧ ¬ τ.Ends h ∨ t ∈ z.subscribed

/-- The same transport, rooms and watches. -/
structure Same (s z : Session P T) : Prop where
  subscribed : z.subscribed = s.subscribed
  rooms : z.rooms = s.rooms
  watches : z.watches = s.watches
  roomTopics : z.roomTopics = s.roomTopics

omit [DecidableEq P] [DecidableEq T] in
theorem Same.holds (h : Same s z) : z.holds = s.holds := by
  funext x
  cases x with
  | room i => rw [Session.holds, Session.holds, h.rooms]
  | day w d => rw [Session.holds, Session.holds, h.watches]

theorem Same.lets (h : Same s z) (t : T) (τ : Teardown) : τ.Lets z t ↔ τ.Lets s t := by
  cases τ <;> simp only [Teardown.Lets, h.holds, h.rooms]

theorem Moves.congr {τ : Teardown} {s₀ s₁ : Session P T} (h : Moves s₀ τ s₁) (h₀ : Same s s₀) (h₁ : Same z s₁) :
    Moves s τ z := by
  refine ⟨fun t ht => ?_, fun x t ht => ?_⟩
  · rw [← h₁.subscribed, ← h₀.lets, keep, ← h₀.roomTopics]
    exact h.subscribed t (h₀.subscribed ▸ ht)
  · rw [← h₁.subscribed, ← h₀.holds]
    exact h.holds x t (h₁.holds ▸ ht)

omit [DecidableEq P] [DecidableEq T] in
theorem holds_day (w : Nat) (d : Date) :
    s.holds (.day w d) = s.watches[w]?.bind fun w => (w.slots.get d).join := rfl

theorem holds_of_watch {i : Nat} {w : Watch P T} (hw : s.watches[i]? = some w) (d : Date) :
    s.holds (.day i d) = (w.slots.get d).join := by
  rw [holds_day, hw, Option.bind_some]

/-- The days of one watch are replaced. -/
theorem holds_set_watch {i : Nat} {w v : Watch P T} (hw : s.watches[i]? = some w)
    (hs' : z.watches = s.watches.set i v) (hrooms : z.rooms = s.rooms) (h : Holder) :
    z.holds h = s.holds h ∧ (∀ d, h ≠ .day i d) ∨ ∃ d, h = .day i d ∧ z.holds h = (v.slots.get d).join := by
  have hi : i < s.watches.length := (List.getElem?_eq_some_iff.mp hw).1
  cases h with
  | room j => exact .inl ⟨by rw [holds, holds, hrooms], fun d hd => by cases hd⟩
  | day j d =>
      by_cases hj : j = i
      · subst hj
        exact .inr ⟨d, rfl, by rw [holds_day, hs', List.getElem?_set_self hi, Option.bind_some]⟩
      · refine .inl ⟨?_, fun d' hd => hj (Holder.day.inj hd).1⟩
        rw [holds_day, holds_day, hs', List.getElem?_set_ne (Ne.symm hj)]

omit [DecidableEq P] [DecidableEq T] in
/-- What a slot of a watch holds. -/
theorem mem_slots {w : Watch P T} {d : Date} {t : T} (h : (d, some t) ∈ w.slots.entries) :
    (w.slots.get d).join = some t := by
  rw [OrdMap.get_eq_some.mpr h, Option.join_some]

theorem stopRotating_eq {i : Nat} {w : Watch P T} (hw : s.watches[i]? = some w) (handed : Option Date) :
    s.stopRotating handed i = { s with
      subscribed := s.subscribed.filter fun t =>
        s.keep t || (w.slots.entries.filter fun slot => some slot.1 ≠ handed).all fun slot => slot.2 ≠ some t
      watches := s.watches.set i { w with slots := .empty, stopped := true } } := by
  simp only [stopRotating, hw, dropSlots_eq]

omit [DecidableEq P] in
theorem stopRotating_none {i : Nat} (hw : s.watches[i]? = none) (handed : Option Date) :
    s.stopRotating handed i = s := by
  simp only [stopRotating, hw]

/-- A watch that stops leaves what is kept, what is handed over, and what no day of its own is on. -/
theorem mem_stopRotating (i : Nat) (handed : Option Date) {t : T} (ht : t ∈ s.subscribed) :
    t ∈ (s.stopRotating handed i).subscribed
      ∨ s.keep t = false ∧ ∃ d, some d ≠ handed ∧ s.holds (.day i d) = some t := by
  cases hw : s.watches[i]? with
  | none => exact .inl (by rw [stopRotating_none hw]; exact ht)
  | some w =>
      rw [stopRotating_eq hw, List.mem_filter]
      cases hkeep : s.keep t with
      | true => exact .inl ⟨ht, by simp⟩
      | false =>
          by_cases hall : (w.slots.entries.filter fun slot => some slot.1 ≠ handed).all (fun slot => slot.2 ≠ some t) = true
          · exact .inl ⟨ht, by rw [hall]; rfl⟩
          · right
            rw [Bool.not_eq_true, List.all_eq_false] at hall
            obtain ⟨⟨d, o⟩, hmem, hslot⟩ := hall
            rw [List.mem_filter, decide_eq_true_eq] at hmem
            obtain rfl : o = some t := by simpa using hslot
            exact ⟨rfl, d, hmem.2, by rw [holds_of_watch hw]; exact mem_slots hmem.1⟩

theorem holds_stopRotating {i : Nat} {handed : Option Date} {h : Holder} {t : T}
    (ht : (s.stopRotating handed i).holds h = some t) : s.holds h = some t ∧ ∀ d, h ≠ .day i d := by
  cases hw : s.watches[i]? with
  | none =>
      rw [stopRotating_none hw] at ht
      refine ⟨ht, ?_⟩
      rintro d rfl
      rw [holds_day, hw] at ht
      cases ht
  | some w =>
      rcases holds_set_watch (z := s.stopRotating handed i) hw (by rw [stopRotating_eq hw]) (by rw [stopRotating_eq hw]) h with
        ⟨heq, hne⟩ | ⟨d, rfl, hd⟩
      · exact ⟨heq ▸ ht, hne⟩
      · rw [hd] at ht
        cases ht

theorem keep_stopRotating (i : Nat) (handed : Option Date) (t : T) : (s.stopRotating handed i).keep t = s.keep t := by
  cases hw : s.watches[i]? with
  | none => rw [stopRotating_none hw]
  | some w => rw [stopRotating_eq hw]; rfl

/-- Watches that stop one after another. -/
theorem stopAll_spec (ws : List Nat) (handed : Option Date) :
    (∀ t ∈ s.subscribed, t ∈ (ws.foldl (stopRotating · handed) s).subscribed
      ∨ s.keep t = false ∧ ∃ w ∈ ws, ∃ d, some d ≠ handed ∧ s.holds (.day w d) = some t)
    ∧ ∀ h t, (ws.foldl (stopRotating · handed) s).holds h = some t →
        s.holds h = some t ∧ ∀ w ∈ ws, ∀ d, h ≠ .day w d := by
  induction ws generalizing s with
  | nil => exact ⟨fun t ht => .inl ht, fun h t ht => ⟨ht, fun w hw => by cases hw⟩⟩
  | cons w ws ih =>
      obtain ⟨ihsub, ihholds⟩ := ih (s := s.stopRotating handed w)
      refine ⟨fun t ht => ?_, fun h t ht => ?_⟩
      · rcases mem_stopRotating w handed ht with hin | ⟨hkeep, d, hd, hholds⟩
        · rcases ihsub t hin with hin' | ⟨hkeep, w', hw', d, hd, hholds⟩
          · exact .inl hin'
          · rw [keep_stopRotating] at hkeep
            exact .inr ⟨hkeep, w', List.mem_cons_of_mem w hw', d, hd, (holds_stopRotating hholds).1⟩
        · exact .inr ⟨hkeep, w, List.mem_cons_self, d, hd, hholds⟩
      · obtain ⟨hholds, hne⟩ := ihholds h t ht
        obtain ⟨hholds', hne'⟩ := holds_stopRotating hholds
        refine ⟨hholds', fun w' hw' => ?_⟩
        rcases List.mem_cons.mp hw' with rfl | hw'
        · exact hne'
        · exact hne w' hw'

theorem moves_stopAll {ws : List Nat} {handed : Option Date} (hsub : z.subscribed = (ws.foldl (stopRotating · handed) s).subscribed)
    (hrooms : z.rooms = (ws.foldl (stopRotating · handed) s).rooms)
    (hwatches : z.watches = (ws.foldl (stopRotating · handed) s).watches) : Moves s (.watches ws handed) z := by
  obtain ⟨hkept, hholds⟩ := stopAll_spec (s := s) ws handed
  refine ⟨fun t ht => ?_, fun h t ht => ?_⟩
  · rw [hsub]
    exact (hkept t ht).imp_right fun ⟨hkeep, w, hw, d, hd, hday⟩ => ⟨⟨w, hw, d, hd, hday⟩, fun _ => hkeep⟩
  · have heq : z.holds h = (ws.foldl (stopRotating · handed) s).holds h := by
      cases h with
      | room i => rw [holds, holds, hrooms]
      | day w d => rw [holds, holds, hwatches]
    obtain ⟨hold, hne⟩ := hholds h t (heq ▸ ht)
    refine .inl ⟨hold, fun hends => ?_⟩
    cases h with
    | room i => exact hends
    | day w d => exact hne w hends d rfl

/-! ## A `sync` -/

theorem prune_eq (i : Nat) (w : Watch P T) (want : List Date) : s.prune i w want = { s with
    subscribed := s.subscribed.filter fun t =>
      s.keep t || (w.slots.entries.filter fun slot => slot.1 ∉ want).all fun slot => slot.2 ≠ some t
    watches := s.watches.set i { w with slots := w.slots.filter fun d _ => d ∈ want } } := by
  simp only [prune, dropSlots_eq]

omit [DecidableEq P] in
/-- The loop comes to its end, or awaits the first day that has no slot. -/
theorem syncFrom_eq (i : Nat) (w : Watch P T) (want todo : List Date) :
    todo.all w.slots.has = true ∧ s.syncFrom i w want todo = s.prune i w want
      ∨ todo.all w.slots.has = false ∧ ∃ d ds, s.syncFrom i w want todo =
        { s with watches := s.watches.set i { w with slots := w.slots.set d none, sync := some (want, d, ds) } }
        ∧ (d :: ds).Sublist todo := by
  induction todo with
  | nil => exact .inl ⟨rfl, rfl⟩
  | cons d ds ih =>
      rw [syncFrom, List.all_cons]
      by_cases hd : w.slots.has d = true
      · rw [if_pos hd, hd, Bool.true_and]
        refine ih.imp_right ?_
        rintro ⟨hall, e, es, heq, hsub⟩
        exact ⟨hall, e, es, heq, hsub.cons d⟩
      · rw [if_neg hd]
        exact .inr ⟨by rw [Bool.not_eq_true _ |>.mp hd, Bool.false_and], d, ds, rfl, .refl _⟩

/-- A `sync` that goes on with `w`, whose days are those of the watch or subscribed by now. -/
theorem moves_syncFrom {y : Session P T} {i : Nat} {w₀ w : Watch P T} (hw : s.watches[i]? = some w₀)
    (hy : y.watches = s.watches ∧ y.rooms = s.rooms ∧ y.roomTopics = s.roomTopics)
    (hsub : ∀ t ∈ s.subscribed, t ∈ y.subscribed) {want todo : List Date}
    (hslots : ∀ d t, (w.slots.get d).join = some t →
      (w₀.slots.get d).join = some t
        ∨ t ∈ y.subscribed ∧ d ∈ want ∧ ((endOfSync i w.slots want todo).Lets s t → s.keep t = true)) :
    Moves s (endOfSync i w.slots want todo) (y.syncFrom i w want todo) := by
  obtain ⟨hwatches, hrooms, htopics⟩ := hy
  have hw₀ : y.watches[i]? = some w₀ := hwatches ▸ hw
  have hsame : ∀ h, y.holds h = s.holds h := by
    intro h
    cases h with
    | room j => rw [holds, holds, hrooms]
    | day j d => rw [holds, holds, hwatches]
  rcases syncFrom_eq (s := y) i w want todo with ⟨hall, heq⟩ | ⟨hall, e, es, heq, -⟩
  · rw [endOfSync, if_pos hall] at hslots ⊢
    rw [heq]
    have hmem : ∀ t ∈ y.subscribed, t ∈ (y.prune i w want).subscribed
        ∨ s.keep t = false ∧ ∃ d, d ∉ want ∧ (w.slots.get d).join = some t := by
      intro t ht
      rw [prune_eq, List.mem_filter]
      cases hkeep : y.keep t with
      | true => exact .inl ⟨ht, by simp⟩
      | false =>
          by_cases hgone : (w.slots.entries.filter fun slot => slot.1 ∉ want).all (fun slot => slot.2 ≠ some t) = true
          · exact .inl ⟨ht, by rw [hgone]; rfl⟩
          · right
            rw [Bool.not_eq_true, List.all_eq_false] at hgone
            obtain ⟨⟨d, o⟩, hin, hslot⟩ := hgone
            rw [List.mem_filter, decide_eq_true_eq] at hin
            obtain rfl : o = some t := by simpa using hslot
            exact ⟨by rw [keep, ← htopics]; exact hkeep, d, hin.2, mem_slots hin.1⟩
    refine ⟨fun t ht => ?_, fun h t ht => ?_⟩
    · refine (hmem t (hsub t ht)).imp_right ?_
      rintro ⟨hkeep, d, hd, hslot⟩
      refine ⟨⟨d, hd, ?_⟩, fun _ => hkeep⟩
      rw [holds_of_watch hw]
      exact (hslots d t hslot).resolve_right fun h => hd h.2.1
    · rcases holds_set_watch (z := y.prune i w want) hw₀ (by rw [prune_eq]) (by rw [prune_eq]) h with
        ⟨hold, hne⟩ | ⟨d, rfl, hd⟩
      · refine .inl ⟨by rw [← hsame, ← hold]; exact ht, fun hends => ?_⟩
        cases h with
        | room j => exact hends
        | day j d => exact hne d (by rw [hends.1])
      · rw [hd] at ht
        have hget : (w.slots.filter fun d _ => decide (d ∈ want)).get d = some (some t) := Option.join_eq_some_iff.mp ht
        obtain ⟨hslot, hwant⟩ := OrdMap.get_filter.mp hget
        have hwant : d ∈ want := of_decide_eq_true hwant
        rcases hslots d t (Option.join_eq_some_iff.mpr hslot) with hslot | ⟨hin, -, hclash⟩
        · exact .inl ⟨by rw [holds_of_watch hw]; exact hslot, fun hends => hends.2 hwant⟩
        · refine .inr ((hmem t hin).resolve_right ?_)
          -- a day that goes and the day that comes would have to share the topic
          rintro ⟨hkeep, e, he, hgone⟩
          have hold := (hslots e t hgone).resolve_right fun h => he h.2.1
          have hkept := hclash ⟨e, he, by rw [holds_of_watch hw]; exact hold⟩
          rw [hkept] at hkeep
          cases hkeep
  · rw [endOfSync, hall, if_neg Bool.false_ne_true] at hslots ⊢
    rw [heq]
    refine ⟨fun t ht => .inl (hsub t ht), fun h t ht => ?_⟩
    have hnothing : ¬ Teardown.nothing.Ends h := by
      cases h with
      | room j => exact fun hends => by cases hends
      | day j d => exact fun hends => hends
    rcases holds_set_watch (v := { w with slots := w.slots.set e none, sync := some (want, e, es) }) (z := { y with
        watches := y.watches.set i { w with slots := w.slots.set e none, sync := some (want, e, es) } }) hw₀ rfl rfl h with
      ⟨hold, -⟩ | ⟨d, rfl, hd⟩
    · exact .inl ⟨by rw [← hsame, ← hold]; exact ht, hnothing⟩
    · rw [hd] at ht
      have hne : d ≠ e := by
        rintro rfl
        rw [OrdMap.get_set_self] at ht
        cases ht
      rw [OrdMap.get_set_ne _ _ hne] at ht
      rcases hslots d t ht with hslot | ⟨hin, -⟩
      · exact .inl ⟨by rw [holds_of_watch hw]; exact hslot, hnothing⟩
      · exact .inr hin

/-! ## Rooms -/

omit [DecidableEq P] [DecidableEq T] in
theorem holds_room (i : Nat) :
    s.holds (.room i) = s.rooms[i]?.bind fun r => if r.live then some r.topic else none := rfl

/-- One room is replaced. -/
theorem holds_set_room {i : Nat} {r q : Room P T} (hr : s.rooms[i]? = some r) (hs' : z.rooms = s.rooms.set i q)
    (hwatches : z.watches = s.watches) (h : Holder) :
    z.holds h = s.holds h ∧ h ≠ .room i ∨ h = .room i ∧ z.holds h = if q.live then some q.topic else none := by
  have hi : i < s.rooms.length := (List.getElem?_eq_some_iff.mp hr).1
  cases h with
  | day w d => exact .inl ⟨by rw [holds, holds, hwatches], fun h => by cases h⟩
  | room j =>
      by_cases hj : j = i
      · subst hj
        exact .inr ⟨rfl, by rw [holds_room, hs', List.getElem?_set_self hi, Option.bind_some]⟩
      · refine .inl ⟨?_, fun h => hj (Holder.room.inj h)⟩
        rw [holds_room, holds_room, hs', List.getElem?_set_ne (Ne.symm hj)]

omit [DecidableEq P] in
theorem stopRoom_eq {i : Nat} {r : Room P T} (hr : s.rooms[i]? = some r) : s.stopRoom i =
    { s with subscribed := s.subscribed.filter (· ≠ r.topic), rooms := s.rooms.set i { r with live := false } } := by
  simp only [stopRoom, hr, unsubscribe, setRoom]

omit [DecidableEq P] in
theorem stopRoom_none {i : Nat} (hr : s.rooms[i]? = none) : s.stopRoom i = s := by
  simp only [stopRoom, hr]

/-- A room that stops keeps its topic. -/
theorem topic_stopRoom (i j : Nat) : ((s.stopRoom i).rooms[j]?).map Room.topic = (s.rooms[j]?).map Room.topic := by
  cases hr : s.rooms[i]? with
  | none => rw [stopRoom_none hr]
  | some r =>
      rw [stopRoom_eq hr]
      have hi : i < s.rooms.length := (List.getElem?_eq_some_iff.mp hr).1
      by_cases hj : j = i
      · subst hj
        rw [List.getElem?_set_self hi, hr]
        rfl
      · rw [List.getElem?_set_ne (Ne.symm hj)]

theorem mem_stopRoom {i : Nat} {t : T} (ht : t ∈ s.subscribed) :
    t ∈ (s.stopRoom i).subscribed ∨ (s.rooms[i]?).map Room.topic = some t := by
  cases hr : s.rooms[i]? with
  | none => exact .inl (by rw [stopRoom_none hr]; exact ht)
  | some r =>
      by_cases h : t = r.topic
      · exact .inr (by rw [Option.map_some, h])
      · exact .inl (by rw [stopRoom_eq hr]; exact List.mem_filter.mpr ⟨ht, decide_eq_true h⟩)

theorem holds_stopRoom {i : Nat} {h : Holder} {t : T} (ht : (s.stopRoom i).holds h = some t) :
    s.holds h = some t ∧ h ≠ .room i := by
  cases hr : s.rooms[i]? with
  | none =>
      rw [stopRoom_none hr] at ht
      refine ⟨ht, ?_⟩
      rintro rfl
      rw [holds_room, hr] at ht
      cases ht
  | some r =>
      rcases holds_set_room (z := s.stopRoom i) hr (by rw [stopRoom_eq hr]) (by rw [stopRoom_eq hr]) h with
        ⟨heq, hne⟩ | ⟨rfl, hd⟩
      · exact ⟨heq ▸ ht, hne⟩
      · rw [hd] at ht
        cases ht

/-- Rooms that stop one after another. -/
theorem moves_stopRooms (is : List Nat) : Moves s (.rooms is) (is.foldl stopRoom s) := by
  have hspec : (∀ t ∈ s.subscribed, t ∈ (is.foldl stopRoom s).subscribed ∨ ∃ i ∈ is, (s.rooms[i]?).map Room.topic = some t)
      ∧ ∀ h t, (is.foldl stopRoom s).holds h = some t → s.holds h = some t ∧ ∀ i ∈ is, h ≠ .room i := by
    induction is generalizing s with
    | nil => exact ⟨fun t ht => .inl ht, fun h t ht => ⟨ht, fun i hi => by cases hi⟩⟩
    | cons i is ih =>
        obtain ⟨ihsub, ihholds⟩ := ih (s := s.stopRoom i)
        refine ⟨fun t ht => ?_, fun h t ht => ?_⟩
        · rcases mem_stopRoom (i := i) ht with hin | htopic
          · refine (ihsub t hin).imp_right ?_
            rintro ⟨j, hj, htopic⟩
            exact ⟨j, List.mem_cons_of_mem i hj, by rw [← topic_stopRoom i]; exact htopic⟩
          · exact .inr ⟨i, List.mem_cons_self, htopic⟩
        · obtain ⟨hholds, hne⟩ := ihholds h t ht
          obtain ⟨hholds', hne'⟩ := holds_stopRoom hholds
          refine ⟨hholds', fun j hj => ?_⟩
          rcases List.mem_cons.mp hj with rfl | hj
          · exact hne'
          · exact hne j hj
  obtain ⟨hsub, hholds⟩ := hspec
  refine ⟨fun t ht => ?_, fun h t ht => ?_⟩
  · refine (hsub t ht).imp_right ?_
    rintro ⟨i, hi, htopic⟩
    obtain ⟨r, hr, htopic⟩ := Option.map_eq_some_iff.mp htopic
    exact ⟨⟨i, hi, r, hr, htopic⟩, fun hasks => hasks.elim⟩
  · obtain ⟨hold, hne⟩ := hholds h t ht
    refine .inl ⟨hold, fun hends => ?_⟩
    cases h with
    | room i => exact hne i hends rfl
    | day w d => exact hends

/-- A room that moves takes its new topic before it lets the old one go. -/
theorem moves_retarget {i : Nat} {r : Room P T} {t : T} (hr : s.rooms[i]? = some r) (ht : t ≠ r.topic) :
    Moves s (.rooms [i]) (s.retarget i r t) := by
  have hsub : (s.retarget i r t).subscribed = (s.subscribed.insert t).filter (· ≠ r.topic) := rfl
  refine ⟨fun u hu => ?_, fun h u hu => ?_⟩
  · by_cases heq : u = r.topic
    · exact .inr ⟨⟨i, List.mem_singleton_self i, r, hr, heq.symm⟩, fun hasks => hasks.elim⟩
    · exact .inl (by rw [hsub]; exact List.mem_filter.mpr ⟨List.mem_insert_of_mem hu, decide_eq_true heq⟩)
  · rcases holds_set_room (z := s.retarget i r t) hr rfl rfl h with ⟨hold, hne⟩ | ⟨rfl, hnew⟩
    · refine .inl ⟨hold ▸ hu, fun hends => ?_⟩
      cases h with
      | room j => exact hne (by rw [List.mem_singleton.mp hends])
      | day w d => exact hends
    · rw [hnew] at hu
      split at hu
      · obtain rfl := Option.some.inj hu
        exact .inr (by rw [hsub]; exact List.mem_filter.mpr ⟨List.mem_insert_self, decide_eq_true ht⟩)
      · cases hu

/-! ## A step -/

theorem not_ends_nothing (h : Holder) : ¬ Teardown.nothing.Ends h := by
  cases h with
  | room i => exact fun hends => by cases hends
  | day w d => exact fun hends => hends

omit [DecidableEq P] in
/-- A step that lets nothing go. -/
theorem moves_nothing (hsub : ∀ t ∈ s.subscribed, t ∈ z.subscribed)
    (hholds : ∀ h t, z.holds h = some t → s.holds h = some t ∨ t ∈ z.subscribed) : Moves s .nothing z :=
  ⟨fun t ht => .inl (hsub t ht), fun h t ht => (hholds h t ht).imp_left fun hold => ⟨hold, not_ends_nothing h⟩⟩

/-- A step that leaves transport, rooms and watches. -/
theorem moves_same (hsub : z.subscribed = s.subscribed) (hrooms : z.rooms = s.rooms) (hwatches : z.watches = s.watches) :
    Moves s .nothing z := by
  refine moves_nothing (fun t ht => hsub ▸ ht) fun h t ht => .inl ?_
  cases h with
  | room i => rwa [holds, ← hrooms]
  | day w d => rwa [holds, ← hwatches]

/-- A room whose place among the live ones and whose topic stay. -/
theorem moves_setRoom {i : Nat} {r q : Room P T} (hr : s.rooms[i]? = some r) (hlive : q.live = r.live)
    (htopic : q.topic = r.topic) (hsub : z.subscribed = s.subscribed) (hrooms : z.rooms = s.rooms.set i q)
    (hwatches : z.watches = s.watches) : Moves s .nothing z := by
  refine moves_nothing (fun t ht => hsub ▸ ht) fun h t ht => .inl ?_
  rcases holds_set_room hr hrooms hwatches h with ⟨hold, -⟩ | ⟨rfl, hnew⟩
  · exact hold ▸ ht
  · rw [holds_room, hr, Option.bind_some, ← hlive, ← htopic, ← hnew]
    exact ht

/-- A day that a `sync` awaits is one that it wants. -/
def Wanted (s : Session P T) : Prop :=
  ∀ (i : Nat) w want d ds, s.watches[i]? = some w → w.sync = some (want, d, ds) → d ∈ want ∧ ∀ e ∈ ds, e ∈ want

theorem moves_derived (hwant : s.Wanted) {i : Nat} {ok : Bool} (hspares : s.Spares C (.derived i ok)) :
    Moves s (s.teardown C (.derived i ok)) (s.derived C i ok) := by
  have htaken := hspares.taken
  simp only [teardown, derived, takes] at htaken ⊢
  cases hw : s.watches[i]? with
  | none => exact moves_same rfl rfl rfl
  | some w =>
      simp only [hw, Option.bind_some] at htaken ⊢
      cases hsync : w.sync with
      | none => exact moves_same rfl rfl rfl
      | some p =>
          obtain ⟨want, d, ds⟩ := p
          simp only [hsync, Option.bind_some] at htaken ⊢
          have hset : ∀ w' : Watch P T, (∀ e t, (w'.slots.get e).join = some t → (w.slots.get e).join = some t) →
              Moves s .nothing { s with watches := s.watches.set i w' } := by
            intro w' hslots
            refine moves_nothing (fun t ht => ht) fun h t ht => .inl ?_
            rcases holds_set_watch (v := w') (z := { s with watches := s.watches.set i w' }) hw rfl rfl h with
              ⟨hold, -⟩ | ⟨e, rfl, he⟩
            · exact hold ▸ ht
            · rw [holds_of_watch hw]
              exact hslots e t (he ▸ ht)
          by_cases hok : ok = false
          · rw [if_pos hok, if_pos (.inl hok)]
            exact hset _ fun e t h => h
          · by_cases hstopped : w.stopped = true
            · rw [if_neg hok, if_pos hstopped, if_pos (.inr hstopped)]
              refine hset _ fun e t h => ?_
              obtain ⟨-, hget⟩ := OrdMap.get_delete_some (Option.join_eq_some_iff.mp h)
              rw [hget, Option.join_some]
            · have hgo : ¬ (ok = false ∨ w.stopped = true) := not_or.mpr ⟨hok, hstopped⟩
              rw [if_neg hok, if_neg hstopped, if_neg hgo]
              simp only [if_neg hgo] at htaken
              refine moves_syncFrom (y := s.subscribe (C.pairDay w.peer d))
                (w := { w with slots := w.slots.set d (some (C.pairDay w.peer d)), sync := none }) hw ⟨rfl, rfl, rfl⟩
                (fun t ht => List.mem_insert_of_mem ht) fun e t h => ?_
              rcases OrdMap.get_set_some (Option.join_eq_some_iff.mp h) with ⟨rfl, heq⟩ | ⟨-, hget⟩
              · obtain rfl := Option.some.inj heq
                refine .inr ⟨List.mem_insert_self, (hwant i w want e ds hw hsync).1, fun hlets => ?_⟩
                exact htaken _ hlets rfl
              · exact .inl (by rw [hget, Option.join_some])

theorem moves_handOff {peer : P} {now : Time} : Moves s
    (.watches (s.presence.get peer).toList (some (rendezvousDay now (C.offsetMs peer)))) (s.handOff C peer now) := by
  cases hget : s.presence.get peer with
  | none => exact moves_stopAll (by rw [handOff, hget]; rfl) (by rw [handOff, hget]; rfl) (by rw [handOff, hget]; rfl)
  | some i => exact moves_stopAll (by rw [handOff, hget]; rfl) (by rw [handOff, hget]; rfl) (by rw [handOff, hget]; rfl)

theorem holds_add_room {r : Room P T} (hs' : z.rooms = s.rooms ++ [r]) (hwatches : z.watches = s.watches) {h : Holder}
    {t : T} (ht : z.holds h = some t) : s.holds h = some t ∨ t = r.topic := by
  cases h with
  | day w d => exact .inl (by rwa [holds_day, ← hwatches])
  | room i =>
      rw [holds_room, hs'] at ht
      rcases Nat.lt_trichotomy i s.rooms.length with hi | rfl | hi
      · rw [List.getElem?_append_left hi] at ht
        exact .inl ht
      · rw [List.getElem?_concat_length, Option.bind_some] at ht
        split at ht
        · exact .inr (Option.some.inj ht).symm
        · cases ht
      · rw [List.getElem?_eq_none (by rw [List.length_append, List.length_singleton]; omega)] at ht
        cases ht

theorem moves_joinChat (peer : P) (t : T) (wasWatched : Bool) : Moves s .nothing (s.joinChat peer t wasWatched) := by
  refine moves_nothing (fun u hu => List.mem_insert_of_mem hu) fun h u hu => ?_
  rcases holds_add_room (s := s) (z := s.joinChat peer t wasWatched) rfl rfl hu with hold | rfl
  · exact .inl hold
  · exact .inr List.mem_insert_self

/-- A watch that starts has no day yet. -/
theorem moves_addWatch (peer : P) : Moves s .nothing (s.addWatch peer) := by
  refine moves_nothing (fun u hu => hu) fun h u hu => .inl ?_
  cases h with
  | room i => exact hu
  | day w d =>
      have hwatches : (s.addWatch peer).watches = s.watches ++ [⟨peer, .empty, false, none⟩] := rfl
      rw [holds_day, hwatches] at hu
      rcases Nat.lt_trichotomy w s.watches.length with hw | rfl | hw
      · rwa [List.getElem?_append_left hw] at hu
      · rw [List.getElem?_concat_length, Option.bind_some] at hu
        cases hu
      · rw [List.getElem?_eq_none (by rw [List.length_append, List.length_singleton]; omega)] at hu
        cases hu

theorem moves_sync {i : Nat} {now : Time} : Moves s (s.teardown C (.sync i now)) (s.sync C i now) := by
  simp only [teardown, sync]
  cases hw : s.watches[i]? with
  | none => exact moves_same rfl rfl rfl
  | some w =>
      simp only
      split
      · exact moves_same rfl rfl rfl
      · exact moves_syncFrom hw ⟨rfl, rfl, rfl⟩ (fun t ht => ht) fun d t h => .inl h

theorem moves_stopWatch (peer : P) : Moves s (.watches (s.presence.get peer).toList none) (s.stopWatch peer) := by
  cases hget : s.presence.get peer with
  | none => exact moves_stopAll (by rw [stopWatch, hget]; rfl) (by rw [stopWatch, hget]; rfl) (by rw [stopWatch, hget]; rfl)
  | some i => exact moves_stopAll (by rw [stopWatch, hget]; rfl) (by rw [stopWatch, hget]; rfl) (by rw [stopWatch, hget]; rfl)

theorem moves_opened (i : Nat) : Moves s .nothing (s.opened i) := by
  unfold opened
  cases hr : s.rooms[i]? with
  | none => exact moves_same rfl rfl rfl
  | some r =>
      simp only
      split
      · exact moves_same rfl rfl rfl
      · exact moves_setRoom hr (q := { r with opened := true }) rfl rfl rfl rfl rfl

theorem moves_leave (i : Nat) : Moves s .nothing (s.leave i) := by
  unfold leave
  cases hr : s.rooms[i]? with
  | none => exact moves_same rfl rfl rfl
  | some r =>
      simp only
      split
      · exact moves_same rfl rfl rfl
      · have hmove : ∀ s₁ : Session P T, s₁.subscribed = s.subscribed → s₁.rooms = s.rooms → s₁.watches = s.watches →
            Moves s .nothing { s₁.setRoom i { r with released := true, registered := false } with
              calls := s₁.calls ++ [.leaving i] } := by
          intro s₁ hsub hrooms hwatches
          exact moves_setRoom hr (q := { r with released := true, registered := false }) rfl rfl hsub
            (by rw [← hrooms]; rfl) hwatches
        split
        · exact hmove s rfl rfl rfl
        · split
          · exact hmove _ rfl rfl rfl
          · exact hmove _ rfl rfl rfl

theorem moves_realign (peer : P) (date : Option Date) : Moves s .nothing (s.realign peer date) := by
  unfold realign
  split
  · exact moves_same rfl rfl rfl
  · split <;> exact moves_same rfl rfl rfl

theorem moves_handshake (i : Nat) (date : Date) (wall : Time) : Moves s .nothing (s.handshake i date wall) := by
  unfold handshake
  split
  · exact moves_same rfl rfl rfl
  · split
    · exact moves_same rfl rfl rfl
    · split
      · exact moves_realign ..
      · exact moves_same rfl rfl rfl

theorem moves_shutdown : Moves s (s.teardown C .close) s.shutdown := by
  show Moves s (if s.closed then .nothing else .watches (s.presence.entries.map Prod.snd) none) s.shutdown
  rw [shutdown]
  by_cases hclosed : s.closed = true
  · rw [if_pos hclosed, if_pos hclosed]
    exact moves_same rfl rfl rfl
  · rw [if_neg hclosed, if_neg hclosed]
    exact (moves_stopAll (s := { s with closed := true }) rfl rfl rfl).congr ⟨rfl, rfl, rfl, rfl⟩ ⟨rfl, rfl, rfl, rfl⟩

theorem moves_goOn (now wall : Time) (ok : Bool) (c : Call P) :
    Moves s (s.teardownOf C now ok c) (s.goOn C now wall ok c).1 := by
  cases c with
  | opening peer pending =>
      cases ok with
      | false => exact moves_same rfl rfl rfl
      | true => exact moves_handOff
  | joining peer date wasWatched =>
      cases ok with
      | false => exact moves_same rfl rfl rfl
      | true => exact moves_joinChat ..
  | leaving i => exact moves_stopRooms [i]
  | left i =>
      simp only [goOn]
      split
      · exact moves_same rfl rfl rfl
      · split <;> exact moves_same rfl rfl rfl
  | contacts rest => cases rest <;> exact moves_same rfl rfl rfl
  | watching peer rest =>
      cases ok with
      | false => exact moves_same rfl rfl rfl
      | true => exact moves_addWatch peer
  | realigning i peer date => cases ok <;> exact moves_same rfl rfl rfl
  | moving i peer date =>
      simp only [goOn, teardownOf]
      cases hr : s.rooms[i]? with
      | none =>
          rw [if_neg fun h => by cases h.2.1]
          exact moves_same rfl rfl rfl
      | some r =>
          simp only [Option.any_some, decide_eq_true_eq]
          by_cases hstay : ok = false ∨ C.pairDay peer date = r.topic ∨ s.openConvs.get peer ≠ some i
          · rw [if_pos hstay, if_neg]
            · exact moves_same rfl rfl rfl
            · rintro ⟨rfl, htopic, hconv⟩
              rcases hstay with h | h | h
              · cases h
              · exact htopic h
              · exact h hconv
          · simp only [not_or, Bool.not_eq_false, not_not, ne_eq] at hstay
            rw [if_pos hstay, if_neg (by simp [hstay])]
            exact moves_retarget hr hstay.2.1
  | closing => exact (moves_stopRooms s.registered).congr ⟨rfl, rfl, rfl, rfl⟩ ⟨rfl, rfl, rfl, rfl⟩

theorem moves_resume {k : Nat} {now wall : Time} {ok : Bool} :
    Moves s (s.teardown C (.resume k now wall ok)) (s.resume C k now wall ok) := by
  simp only [teardown, resume]
  cases hk : s.calls[k]? with
  | none => exact moves_same rfl rfl rfl
  | some c =>
      have hgo := moves_goOn (C := C) (s := { s with calls := s.calls.eraseIdx k }) now wall ok c
      have hτ : ({ s with calls := s.calls.eraseIdx k } : Session P T).teardownOf C now ok c = s.teardownOf C now ok c := by
        cases c <;> rfl
      rw [hτ] at hgo
      exact hgo.congr ⟨rfl, rfl, rfl, rfl⟩ ⟨rfl, rfl, rfl, rfl⟩

/-- Every step, as the transport and the holders see it. -/
theorem moves_act (hwant : s.Wanted) {a : Event P} (hspares : s.Spares C a) : Moves s (s.teardown C a) (s.act C a) := by
  cases a with
  | open' peer => exact moves_same rfl rfl rfl
  | opened i => exact moves_opened i
  | leave i => exact moves_leave i
  | watchContacts contacts => exact moves_same rfl rfl rfl
  | unwatch peer => exact moves_stopWatch peer
  | realign peer => exact moves_realign peer none
  | handshake i date wall => exact moves_handshake i date wall
  | sync i now => exact moves_sync
  | derived i ok => exact moves_derived hwant hspares
  | resume k now wall ok => exact moves_resume
  | close => exact moves_shutdown

/-! ## The count of the rooms -/

/-- The rooms that are counted on a topic. -/
def countedOn (rooms : List (Room P T)) (t : T) : Nat := rooms.countP fun r => r.counted && decide (r.topic = t)

/-- A map of counts, without the zeros. -/
def Counts (m : OrdMap T Nat) (n : T → Nat) : Prop := ∀ t, m.get t = if n t = 0 then none else some (n t)

theorem Counts.getD {m : OrdMap T Nat} {n : T → Nat} (h : Counts m n) (t : T) : (m.get t).getD 0 = n t := by
  rw [h t]
  split
  case isTrue h0 => exact h0.symm
  case isFalse => rfl

omit [DecidableEq P] in
theorem Counts.hold {n : T → Nat} (h : Counts s.roomTopics n) (t : T) :
    Counts (s.holdTopic t).roomTopics fun u => n u + if u = t then 1 else 0 := by
  intro u
  rw [holdTopic, OrdMap.get_set, h.getD]
  by_cases hu : u = t
  · simp [hu]
  · simpa [hu] using h u

omit [DecidableEq P] in
theorem Counts.release {n : T → Nat} (h : Counts s.roomTopics n) (t : T) :
    Counts (s.releaseTopic t).roomTopics fun u => n u - if u = t then 1 else 0 := by
  intro u
  simp only [releaseTopic, h.getD]
  by_cases hu : u = t
  · subst hu
    by_cases hn : n u - 1 > 0
    · rw [if_pos hn, OrdMap.get_set_self, if_pos rfl, if_neg (by omega)]
    · rw [if_neg hn, OrdMap.get_delete_self, if_pos rfl, if_pos (by omega)]
  · rw [if_neg hu, Nat.sub_zero, ← h u]
    split
    · rw [OrdMap.get_set_ne _ _ hu]
    · rw [OrdMap.get_delete_ne _ hu]

/-- What the session's own maps say of its rooms and watches. -/
structure Books (s : Session P T) : Prop where
  count : Counts s.roomTopics (countedOn s.rooms)
  conv : ∀ p i, s.openConvs.get p = some i → ∃ r, s.rooms[i]? = some r ∧ r.counted = true ∧ r.peer = p
  fresh : ∀ r ∈ s.rooms, r.opened = false → r.released = false
  wanted : s.Wanted

theorem books_start : (start : Session P T).Books where
  count _ := rfl
  conv p i h := by cases h
  fresh r hr := by cases hr
  wanted i w want d ds hw := by cases hw

omit [DecidableEq P] in
theorem countedOn_set {i : Nat} {r q : Room P T} {rooms : List (Room P T)} (hr : rooms[i]? = some r) (t : T) :
    countedOn (rooms.set i q) t + (if r.counted = true ∧ r.topic = t then 1 else 0)
      = countedOn rooms t + if q.counted = true ∧ q.topic = t then 1 else 0 := by
  obtain ⟨hi, hget⟩ := List.getElem?_eq_some_iff.mp hr
  have hle := List.boole_getElem_le_countP (p := fun r => r.counted && decide (r.topic = t)) hi
  rw [countedOn, countedOn, List.countP_set hi]
  simp only [hget, Bool.and_eq_true, decide_eq_true_eq] at hle ⊢
  omega

omit [DecidableEq P] in
theorem countedOn_pos {i : Nat} {r : Room P T} {rooms : List (Room P T)} (hr : rooms[i]? = some r)
    (hcounted : r.counted = true) : 0 < countedOn rooms r.topic :=
  List.countP_pos_iff.mpr ⟨r, List.mem_of_getElem? hr, by rw [hcounted, Bool.true_and]; exact decide_eq_true rfl⟩

namespace Books

theorem congr (h : s.Books) (hrooms : z.rooms = s.rooms) (htopics : z.roomTopics = s.roomTopics)
    (hconvs : z.openConvs = s.openConvs) (hwatches : z.watches = s.watches) : z.Books where
  count t := by rw [htopics, hrooms]; exact h.count t
  conv p i hp := by rw [hrooms]; exact h.conv p i (hconvs ▸ hp)
  fresh r hr := h.fresh r (hrooms ▸ hr)
  wanted i w want d ds hw := h.wanted i w want d ds (hwatches ▸ hw)

/-- One watch is replaced by one whose await is wanted. -/
theorem setWatch (h : s.Books) {i : Nat} {w : Watch P T} (hrooms : z.rooms = s.rooms)
    (htopics : z.roomTopics = s.roomTopics) (hconvs : z.openConvs = s.openConvs)
    (hwatches : z.watches = s.watches.set i w)
    (hsync : ∀ want d ds, w.sync = some (want, d, ds) → d ∈ want ∧ ∀ e ∈ ds, e ∈ want) : z.Books := by
  refine { h.congr (z := { z with watches := s.watches }) hrooms htopics hconvs rfl with wanted := ?_ }
  intro j w' want d ds hw' hsync'
  rw [hwatches] at hw'
  by_cases hj : j = i
  · subst hj
    obtain ⟨hj, heq⟩ := List.getElem?_eq_some_iff.mp hw'
    rw [List.getElem_set_self] at heq
    exact hsync want d ds (heq ▸ hsync')
  · rw [List.getElem?_set_ne (Ne.symm hj)] at hw'
    exact h.wanted j w' want d ds hw' hsync'

theorem stopRotating (h : s.Books) (handed : Option Date) (i : Nat) : (s.stopRotating handed i).Books := by
  cases hw : s.watches[i]? with
  | none => rw [stopRotating_none hw]; exact h
  | some w =>
      rw [stopRotating_eq hw]
      exact h.setWatch rfl rfl rfl rfl fun want d ds hsync => h.wanted i w want d ds hw hsync

theorem syncFrom (h : s.Books) {i : Nat} {w : Watch P T} {want todo : List Date} (hsync : w.sync = none)
    (htodo : ∀ d ∈ todo, d ∈ want) : (s.syncFrom i w want todo).Books := by
  rcases syncFrom_eq (s := s) i w want todo with ⟨-, heq⟩ | ⟨-, d, ds, heq, hsub⟩
  · rw [heq, prune_eq]
    refine h.setWatch rfl rfl rfl rfl fun want d ds hs => ?_
    rw [hsync] at hs
    cases hs
  · rw [heq]
    refine h.setWatch rfl rfl rfl rfl fun want' d' ds' hs => ?_
    obtain ⟨rfl, rfl, rfl⟩ : want = want' ∧ d = d' ∧ ds = ds' := by simpa using hs
    have hall : ∀ e ∈ d :: ds, e ∈ want := fun e he => htodo e (hsub.subset he)
    exact ⟨hall d List.mem_cons_self, fun e he => hall e (List.mem_cons_of_mem d he)⟩

/-- One room is replaced by another that counts as much. -/
theorem setRoom (h : s.Books) {i : Nat} {r q : Room P T} (hr : s.rooms[i]? = some r) (hcounted : q.counted = r.counted)
    (htopic : q.topic = r.topic) (hpeer : q.peer = r.peer) (hfresh : q.opened = false → q.released = false)
    (hrooms : z.rooms = s.rooms.set i q) (htopics : z.roomTopics = s.roomTopics)
    (hconvs : ∀ p j, z.openConvs.get p = some j → s.openConvs.get p = some j) (hwatches : z.watches = s.watches) :
    z.Books where
  count t := by
    have hcount := countedOn_set (q := q) hr t
    rw [hcounted, htopic] at hcount
    rw [htopics, hrooms, h.count t, Nat.add_right_cancel hcount]
  conv p j hp := by
    obtain ⟨r₀, hr₀, hc, hp₀⟩ := h.conv p j (hconvs p j hp)
    rw [hrooms]
    by_cases hj : j = i
    · subst hj
      obtain rfl := Option.some.inj (hr₀.symm.trans hr)
      exact ⟨q, List.getElem?_set_self (List.getElem?_eq_some_iff.mp hr).1, hcounted ▸ hc, hpeer ▸ hp₀⟩
    · exact ⟨r₀, by rw [List.getElem?_set_ne (Ne.symm hj)]; exact hr₀, hc, hp₀⟩
  fresh r₀ hr₀ := by
    rw [hrooms] at hr₀
    rcases List.mem_or_eq_of_mem_set hr₀ with hr₀ | rfl
    · exact h.fresh r₀ hr₀
    · exact hfresh
  wanted j w want d ds hw := h.wanted j w want d ds (hwatches ▸ hw)

theorem stopRoom (h : s.Books) (i : Nat) : (s.stopRoom i).Books := by
  cases hr : s.rooms[i]? with
  | none => rw [stopRoom_none hr]; exact h
  | some r =>
      rw [stopRoom_eq hr]
      exact h.setRoom hr (q := { r with live := false }) rfl rfl rfl (h.fresh r (List.mem_of_getElem? hr)) rfl rfl
        (fun p j hp => hp) rfl

theorem foldl {α : Type} {f : Session P T → α → Session P T} (hf : ∀ s a, Books s → Books (f s a)) (h : s.Books) (l : List α) :
    (l.foldl f s).Books := by
  induction l generalizing s with
  | nil => exact h
  | cons a l ih => exact ih (hf s a h)

/-- A room that is counted from now on. -/
theorem opened (h : s.Books) (i : Nat) : (s.opened i).Books := by
  unfold Session.opened
  cases hr : s.rooms[i]? with
  | none => exact h
  | some r =>
      simp only
      split
      · exact h
      case isFalse hopened =>
        have hreleased : r.released = false := h.fresh r (List.mem_of_getElem? hr) (Bool.not_eq_true _ |>.mp hopened)
        have hbefore : r.counted = false := by rw [Room.counted, Bool.not_eq_true _ |>.mp hopened, Bool.false_and]
        have hafter : ({ r with opened := true } : Room P T).counted = true := by simp [Room.counted, hreleased]
        refine ⟨fun t => ?_, fun p j hp => ?_, fun r₀ hr₀ hr₀' => ?_, h.wanted⟩
        · have hcount := countedOn_set (q := { r with opened := true }) hr t
          have hhold := h.count.hold r.topic t
          simp only [hbefore, hafter, Bool.false_eq_true, false_and, if_false, true_and, Nat.add_zero] at hcount
          simp only [eq_comm (a := t)] at hhold
          rw [← hcount] at hhold
          exact hhold
        · rcases OrdMap.get_set_some hp with ⟨rfl, rfl⟩ | ⟨-, hp⟩
          · exact ⟨_, List.getElem?_set_self (List.getElem?_eq_some_iff.mp hr).1, hafter, rfl⟩
          · obtain ⟨r₀, hr₀, hc, hp₀⟩ := h.conv p j hp
            have hj : j ≠ i := by
              rintro rfl
              obtain rfl := Option.some.inj (hr₀.symm.trans hr)
              rw [hbefore] at hc
              cases hc
            exact ⟨r₀, by rw [Session.setRoom, List.getElem?_set_ne (Ne.symm hj)]; exact hr₀, hc, hp₀⟩
        · rcases List.mem_or_eq_of_mem_set hr₀ with hr₀ | rfl
          · exact h.fresh r₀ hr₀ hr₀'
          · cases hr₀'

/-- A room that is released. -/
theorem leave (h : s.Books) (i : Nat) : (s.leave i).Books := by
  unfold Session.leave
  cases hr : s.rooms[i]? with
  | none => exact h
  | some r =>
      simp only
      split
      · exact h
      case isFalse hopened =>
        have hopened : r.opened = true := Bool.not_eq_false _ |>.mp hopened
        cases hreleased : r.released with
        | true =>
            refine h.setRoom hr (q := { r with released := true, registered := false }) ?_ rfl rfl ?_ rfl rfl
              (fun p j hp => hp) rfl
            · simp [Room.counted, hreleased]
            · simp [hopened]
        | false =>
            rw [if_neg Bool.false_ne_true]
            have hbefore : r.counted = true := by simp [Room.counted, hopened, hreleased]
            have hafter : ({ r with released := true, registered := false } : Room P T).counted = false := by
              simp [Room.counted]
            have hrelease : ∀ t, ((s.releaseTopic r.topic).roomTopics).get t =
                if countedOn (s.rooms.set i { r with released := true, registered := false }) t = 0 then none
                else some (countedOn (s.rooms.set i { r with released := true, registered := false }) t) := by
              intro t
              have hcount := countedOn_set (q := { r with released := true, registered := false }) hr t
              have hrel := h.count.release r.topic t
              simp only [hbefore, hafter, Bool.false_eq_true, false_and, if_false, true_and, Nat.add_zero] at hcount
              simp only [eq_comm (a := t)] at hrel
              rw [← hcount, Nat.add_sub_cancel] at hrel
              exact hrel
            have hothers : ∀ p j, s.openConvs.get p = some j → j ≠ i → ∃ r₀,
                (s.rooms.set i { r with released := true, registered := false })[j]? = some r₀ ∧ r₀.counted = true
                  ∧ r₀.peer = p := by
              intro p j hp hj
              obtain ⟨r₀, hr₀, hc, hp₀⟩ := h.conv p j hp
              exact ⟨r₀, by rw [List.getElem?_set_ne (Ne.symm hj)]; exact hr₀, hc, hp₀⟩
            have hown : ∀ p, s.openConvs.get p = some i → p = r.peer := by
              intro p hp
              obtain ⟨r₀, hr₀, -, hp₀⟩ := h.conv p i hp
              obtain rfl := Option.some.inj (hr₀.symm.trans hr)
              exact hp₀.symm
            have hfresh : ∀ r₀ ∈ s.rooms.set i { r with released := true, registered := false },
                r₀.opened = false → r₀.released = false := by
              intro r₀ hr₀ hr₀'
              rcases List.mem_or_eq_of_mem_set hr₀ with hr₀ | rfl
              · exact h.fresh r₀ hr₀ hr₀'
              · rw [hopened] at hr₀'
                cases hr₀'
            split
            case isTrue hconv =>
              refine ⟨hrelease, fun p j hp => ?_, hfresh, h.wanted⟩
              obtain ⟨hne, hp⟩ := OrdMap.get_delete_some hp
              have hp : s.openConvs.get p = some j := hp
              exact hothers p j hp fun hj => hne (hown p (hj ▸ hp))
            case isFalse hconv =>
              refine ⟨hrelease, fun p j hp => ?_, hfresh, h.wanted⟩
              have hp : s.openConvs.get p = some j := hp
              refine hothers p j hp fun hj => hconv ?_
              rw [hj] at hp
              rw [← hown p hp]
              exact hp

/-- A room that moves is counted where it goes. -/
theorem retarget (h : s.Books) {i : Nat} {r : Room P T} (hr : s.rooms[i]? = some r) (hcounted : r.counted = true) (t : T) :
    (s.retarget i r t).Books := by
  have hnew : ({ r with topic := t } : Room P T).counted = true := hcounted
  refine ⟨fun u => ?_, fun p j hp => ?_, fun r₀ hr₀ hr₀' => ?_, h.wanted⟩
  · have hcount := countedOn_set (q := { r with topic := t }) hr u
    have hmoved := (h.count.release (s := (((s.subscribe t).unsubscribe r.topic).setRoom i { r with topic := t })) r.topic).hold t u
    simp only [hcounted, hnew, true_and] at hcount
    have hpos : (if r.topic = u then 1 else 0) ≤ countedOn s.rooms u := by
      split
      case isTrue htopic => exact htopic ▸ countedOn_pos hr hcounted
      case isFalse => exact Nat.zero_le _
    have heq : countedOn s.rooms u - (if u = r.topic then 1 else 0) + (if u = t then 1 else 0)
        = countedOn (s.rooms.set i { r with topic := t }) u := by
      simp only [eq_comm (a := u)]
      omega
    simp only [heq] at hmoved
    exact hmoved
  · obtain ⟨r₀, hr₀, hc, hp₀⟩ := h.conv p j hp
    by_cases hj : j = i
    · subst hj
      obtain rfl := Option.some.inj (hr₀.symm.trans hr)
      exact ⟨_, List.getElem?_set_self (List.getElem?_eq_some_iff.mp hr).1, hnew, hp₀⟩
    · exact ⟨r₀, (List.getElem?_set_ne (Ne.symm hj)).trans hr₀, hc, hp₀⟩
  · rcases List.mem_or_eq_of_mem_set hr₀ with hr₀ | rfl
    · exact h.fresh r₀ hr₀ hr₀'
    · exact h.fresh r (List.mem_of_getElem? hr) hr₀'

theorem joinChat (h : s.Books) (peer : P) (t : T) (wasWatched : Bool) : (s.joinChat peer t wasWatched).Books where
  count u := by
    have hnew : countedOn [(⟨peer, t, wasWatched, true, true, false, false⟩ : Room P T)] u = 0 := rfl
    have happ : countedOn (s.joinChat peer t wasWatched).rooms u = countedOn s.rooms u := by
      have hcount : countedOn (s.joinChat peer t wasWatched).rooms u = _ := List.countP_append
      rw [hcount]
      exact congrArg (countedOn s.rooms u + ·) hnew
    rw [happ]
    exact h.count u
  conv p i hp := by
    obtain ⟨r, hr, hc⟩ := h.conv p i hp
    exact ⟨r, (List.getElem?_append_left (List.getElem?_eq_some_iff.mp hr).1).trans hr, hc⟩
  fresh r hr hopened := by
    rcases List.mem_append.mp hr with hr | hr
    · exact h.fresh r hr hopened
    · rw [List.mem_singleton.mp hr]
  wanted := h.wanted

theorem addWatch (h : s.Books) (peer : P) : (s.addWatch peer).Books := by
  refine { h.congr (z := { s.addWatch peer with watches := s.watches }) rfl rfl rfl rfl with wanted := ?_ }
  intro i w want d ds hw hsync
  have hw : (s.watches ++ [⟨peer, .empty, false, none⟩])[i]? = some w := hw
  rcases Nat.lt_trichotomy i s.watches.length with hi | rfl | hi
  · rw [List.getElem?_append_left hi] at hw
    exact h.wanted i w want d ds hw hsync
  · rw [List.getElem?_concat_length] at hw
    obtain rfl := Option.some.inj hw
    cases hsync
  · rw [List.getElem?_eq_none (by rw [List.length_append, List.length_singleton]; omega)] at hw
    cases hw

theorem sync (h : s.Books) (i : Nat) (now : Time) : (s.sync C i now).Books := by
  unfold Session.sync
  cases hw : s.watches[i]? with
  | none => exact h
  | some w =>
      simp only
      split
      · exact h
      case isFalse hidle =>
        rw [Bool.or_eq_true, not_or, Option.not_isSome_iff_eq_none] at hidle
        exact h.syncFrom hidle.2 fun d hd => hd

theorem derived (h : s.Books) (i : Nat) (ok : Bool) : (s.derived C i ok).Books := by
  unfold Session.derived
  cases hw : s.watches[i]? with
  | none => exact h
  | some w =>
      simp only
      cases hsync : w.sync with
      | none => exact h
      | some p =>
          obtain ⟨want, d, ds⟩ := p
          simp only
          split
          · exact h.setWatch rfl rfl rfl rfl fun _ _ _ hs => by cases hs
          · split
            · exact h.setWatch rfl rfl rfl rfl fun _ _ _ hs => by cases hs
            · exact (h.congr (z := s.subscribe (C.pairDay w.peer d)) rfl rfl rfl rfl).syncFrom rfl
                (h.wanted i w want d ds hw hsync).2

theorem stopWatch (h : s.Books) (peer : P) : (s.stopWatch peer).Books := by
  unfold Session.stopWatch
  split
  · exact h.congr rfl rfl rfl rfl
  case h_2 i _ => exact (h.stopRotating none i).congr rfl rfl rfl rfl

theorem handOff (h : s.Books) (peer : P) (now : Time) : (s.handOff C peer now).Books := by
  unfold Session.handOff
  split
  · exact h
  case h_2 i _ => exact (h.stopRotating _ i).congr rfl rfl rfl rfl

theorem realign (h : s.Books) (peer : P) (date : Option Date) : (s.realign peer date).Books := by
  unfold Session.realign
  split
  · exact h
  · split
    · exact h
    · exact h.congr rfl rfl rfl rfl

theorem handshake (h : s.Books) (i : Nat) (date : Date) (wall : Time) : (s.handshake i date wall).Books := by
  unfold Session.handshake
  split
  · exact h
  · split
    · exact h
    · split
      · exact h.realign ..
      · exact h.congr rfl rfl rfl rfl

theorem shutdown (h : s.Books) : s.shutdown.Books := by
  unfold Session.shutdown
  split
  · exact h
  · have hclosed : ({ s with closed := true } : Session P T).Books := h.congr rfl rfl rfl rfl
    exact (foldl (fun s i h => h.stopRotating none i) hclosed _).congr rfl rfl rfl rfl

theorem goOn (h : s.Books) (now wall : Time) (ok : Bool) (c : Call P) : (s.goOn C now wall ok c).1.Books := by
  cases c with
  | opening peer pending =>
      cases ok with
      | false => exact h
      | true => exact h.handOff peer now
  | joining peer date wasWatched =>
      cases ok with
      | false => exact h
      | true => exact h.joinChat ..
  | leaving i => exact h.stopRoom i
  | left i =>
      simp only [Session.goOn]
      split
      · exact h
      · split <;> exact h
  | contacts rest => cases rest <;> exact h
  | watching peer rest =>
      cases ok with
      | false => exact h
      | true => exact h.addWatch peer
  | realigning i peer date => cases ok <;> exact h
  | moving i peer date =>
      simp only [Session.goOn]
      split
      · exact h
      case h_2 r hr =>
        split
        · exact h
        case isFalse hgo =>
          simp only [not_or, not_not, ne_eq] at hgo
          obtain ⟨r₀, hr₀, hc, -⟩ := h.conv peer i hgo.2.2
          obtain rfl := Option.some.inj (hr₀.symm.trans hr)
          exact h.retarget hr hc _
  | closing => exact (foldl (fun s i h => h.stopRoom i) h s.registered).congr rfl rfl rfl rfl

theorem act (h : s.Books) (a : Event P) : (s.act C a).Books := by
  cases a with
  | open' peer => exact h.congr rfl rfl rfl rfl
  | opened i => exact h.opened i
  | leave i => exact h.leave i
  | watchContacts contacts => exact h.congr rfl rfl rfl rfl
  | unwatch peer => exact h.stopWatch peer
  | realign peer => exact h.realign peer none
  | handshake i date wall => exact h.handshake i date wall
  | sync i now => exact h.sync i now
  | derived i ok => exact h.derived i ok
  | resume k now wall ok =>
      simp only [Session.act, Session.resume]
      split
      · exact h
      case h_2 c _ =>
        have hcalls : ({ s with calls := s.calls.eraseIdx k } : Session P T).Books := h.congr rfl rfl rfl rfl
        exact (hcalls.goOn (C := C) now wall ok c).congr rfl rfl rfl rfl
  | close => exact h.shutdown

/-- A room that is counted is one that `keep` knows. -/
theorem keep_of_known (h : s.Books) {x : Holder} {t : T} (hknown : s.Known x) (ht : s.holds x = some t) :
    s.keep t = true := by
  cases x with
  | day w d => exact hknown.elim
  | room i =>
      obtain ⟨r, hr, hc⟩ := hknown
      rw [holds_room, hr, Option.bind_some] at ht
      split at ht
      case isFalse => cases ht
      obtain rfl := Option.some.inj ht
      have hpos := countedOn_pos hr hc
      rw [keep, OrdMap.has, h.count r.topic, if_neg (by omega)]
      rfl

end Books

/-! ## Runs -/

/-- Every live holder's topic is subscribed. -/
def Held (s : Session P T) : Prop := ∀ x t, s.holds x = some t → t ∈ s.subscribed

theorem held_act (hbooks : s.Books) (h : s.Held) {a : Event P} (hspares : s.Spares C a) : (s.act C a).Held := by
  have hmoves := moves_act hbooks.wanted hspares
  intro x t ht
  rcases hmoves.holds x t ht with ⟨hold, hends⟩ | hin
  · refine (hmoves.subscribed t (h x t hold)).resolve_right ?_
    rintro ⟨hlets, hkeep⟩
    obtain ⟨hasks, hknown⟩ := (hspares.others t hlets x hold).resolve_left hends
    have hkept := hbooks.keep_of_known hknown hold
    rw [hkeep hasks] at hkept
    cases hkept
  · exact hin

/-- As long as no step lets go of a topic that another holder has, unless a watch asks and a counted room has it, every
topic of a live room or watch is subscribed. -/
theorem held_subscribed {s : Session P T} (h : Reach (step C) (fun s a => s.down = false → s.Spares C a) start s)
    {x : Holder} {t : T} (ht : s.holds x = some t) : t ∈ s.subscribed := by
  have hall : s.Books ∧ s.Held := by
    refine h.invariant (I := fun s => s.Books ∧ s.Held) ⟨books_start, fun x t hx => ?_⟩ ?_
    · cases x <;> cases hx
    · rintro s a ⟨hbooks, hheld⟩ hspares
      rw [step]
      split
      · exact ⟨hbooks, hheld⟩
      case isFalse hdown =>
        exact ⟨hbooks.act a, held_act hbooks hheld (hspares (Bool.not_eq_true _ |>.mp hdown))⟩
  exact hall.2 x t ht

/-! ## A contact with a room and a watch -/

theorem spares_of_not_lets {a : Event P} (h : ∀ t, ¬ (s.teardown C a).Lets s t) : s.Spares C a where
  others t hlets := absurd hlets (h t)
  taken t hlets := absurd hlets (h t)

theorem spares_of_nothing {a : Event P} (h : s.teardown C a = .nothing) : s.Spares C a := by
  refine spares_of_not_lets fun t hlets => ?_
  rw [h] at hlets
  obtain ⟨i, hi, -⟩ := hlets
  cases hi

/-- The days of a watch are those of its slots. -/
theorem date_of_holds {i : Nat} {d : Date} {t : T} {l : List Date}
    (hl : (s.watches[i]?.map fun w => w.slots.keys) = some l) (h : s.holds (.day i d) = some t) : d ∈ l := by
  obtain ⟨w, hw, rfl⟩ := Option.map_eq_some_iff.mp hl
  rw [holds_of_watch hw] at h
  exact OrdMap.mem_keys.mpr ⟨_, Option.join_eq_some_iff.mp h⟩

/-- Noon of the first day, and topics that are a contact's day. -/
def samplePairs : Pairs Nat (Nat × Date) := ⟨fun _ => 0, OVERLAP_MS, fun p d => (p, d)⟩

def noon : Time := 43200000

/-- A contact is watched, and its conversation is opened. -/
def watchThenOpen : List (Event Nat) :=
  [.watchContacts [0], .resume 0 noon noon true, .resume 0 noon noon true, .sync 0 noon, .derived 0 true, .open' 0,
    .resume 1 noon noon true, .resume 1 noon noon true, .opened 0]

theorem held_subscribed_sample : ∃ s, Reach (step samplePairs) (fun s a => s.down = false → s.Spares samplePairs a) start s ∧
    s.holds (.room 0) = some (0, 0) ∧ (0, 0) ∈ s.subscribed := by
  have hrun : Admits (step samplePairs) (fun s a => s.down = false → s.Spares samplePairs a) start watchThenOpen := by
    refine ⟨fun _ => spares_of_nothing (by decide), fun _ => spares_of_nothing (by decide),
      fun _ => spares_of_nothing (by decide), fun _ => spares_of_nothing (by decide), fun _ => ?_,
      fun _ => spares_of_nothing (by decide), fun _ => ?_, fun _ => spares_of_nothing (by decide),
      fun _ => spares_of_nothing (by decide), trivial⟩
    · refine spares_of_not_lets fun t => ?_
      rintro ⟨d, hd, hholds⟩
      exact hd (date_of_holds (l := [0]) (by decide) hholds)
    · refine spares_of_not_lets fun t => ?_
      rintro ⟨w, hw, d, hd, hholds⟩
      obtain rfl : w = 0 := List.mem_singleton.mp hw
      obtain rfl : d = 0 := List.mem_singleton.mp (date_of_holds (l := [0]) (by decide) hholds)
      exact hd rfl
  have hreach := hrun.reach .start
  have hholds : (watchThenOpen.foldl (step samplePairs) start).holds (.room 0) = some (0, 0) := by decide
  exact ⟨_, hreach, hholds, held_subscribed hreach hholds⟩

/-- A contact whose conversation is open is watched too, as `watchContacts` does, and the conversation is left. -/
def openThenWatch : List (Event Nat) :=
  [.open' 0, .resume 0 noon noon true, .resume 0 noon noon true, .opened 0, .watchContacts [0],
    .resume 0 noon noon true, .resume 0 noon noon true, .sync 0 noon, .derived 0 true, .leave 0,
    .resume 1 noon noon true]

/-- The room takes the topic from the watch. -/
theorem deaf_watch : ∃ (s : Session Nat (Nat × Date)) (x : Holder) (t : Nat × Date),
    Reach (step samplePairs) (fun _ _ => True) start s ∧ s.holds x = some t ∧ t ∉ s.subscribed :=
  ⟨openThenWatch.foldl (step samplePairs) start, .day 0 0, (0, 0),
    (Admits.of_forall (fun _ _ => trivial) _ _).reach .start, by decide, by decide⟩

end Session

end EncedoChat.Presence
