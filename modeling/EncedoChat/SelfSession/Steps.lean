import EncedoChat.SelfSession.Moves

/-!
# What a step does to a window

Every step but a frame moves the watches and starts new ones; who is told of it, and how a watch that is on its way
comes to its end.
-/

namespace EncedoChat.SelfSession

open Presence (Time Date activeDatesForOffset)

variable {M : Mac} {τ : Type} [DecidableEq τ]

namespace Window

variable {C : Config M τ} {me : String} {rot : Watch M τ → Prop} {w w' : Window M τ}

/-- The window stood down, or was closed. -/
def Over (w : Window M τ) : Prop := w.taken = true ∨ w.stopped = true

/-- Objects are numbered as they are made. -/
def Ids (w : Window M τ) : Prop := ∀ i v, w.objs.get i = some v → i < w.fresh

/-- What a step without a frame does to a window. -/
structure Steps (me : String) (rot : Watch M τ → Prop) (w w' : Window M τ) : Prop where
  ended : w.Over → w'.Over
  ids : w.Ids → w'.Ids
  objs : ∀ i v, w.objs.get i = some v → ∃ v', w'.objs.get i = some v' ∧ v.Move me rot w'.Over v'
  news : ∀ i v', w'.objs.get i = some v' →
    (∃ v, w.objs.get i = some v) ∨ ∃ topic key, (Watch.start topic key).Move me rot w'.Over v'

/-- Which watches may be stopped does not change as they stop, and a watch just started is one. -/
structure Stoppable (rot : Watch M τ → Prop) : Prop where
  stop : ∀ v, rot v → rot v.stop
  start : ∀ topic key, rot (.start topic key)

omit [DecidableEq τ] in
theorem Steps.of_objs (hobjs : w'.objs = w.objs) (hover : w.Over → w'.Over) (hfresh : w.fresh ≤ w'.fresh) :
    Steps me rot w w' where
  ended := hover
  ids h i v hv := (h i v (hobjs ▸ hv)).trans_le hfresh
  objs _ v hv := ⟨v, hobjs ▸ hv, .refl v⟩
  news _ v hv := .inl ⟨v, hobjs ▸ hv⟩

theorem Steps.refl (w : Window M τ) : Steps me rot w w := .of_objs rfl id le_rfl

theorem Steps.trans {w'' : Window M τ} (h : Steps me rot w w') (h' : Steps me rot w' w'') : Steps me rot w w'' where
  ended ho := h'.ended (h.ended ho)
  ids hi := h'.ids (h.ids hi)
  objs i v hv := by
    obtain ⟨v', hv', hm⟩ := h.objs i v hv
    obtain ⟨v'', hv'', hm'⟩ := h'.objs i v' hv'
    exact ⟨v'', hv'', .trans (hm.mono h'.ended) hm'⟩
  news i v'' hv'' := by
    obtain ⟨v', hv'⟩ | hnew := h'.news i v'' hv''
    · obtain hold | ⟨topic, key, hm⟩ := h.news i v' hv'
      · exact .inl hold
      · obtain ⟨u, hu, hm'⟩ := h'.objs i v' hv'
        cases hu.symm.trans hv''
        exact .inr ⟨topic, key, .trans (hm.mono h'.ended) hm'⟩
    · exact .inr hnew

omit [DecidableEq τ] in
/-- A watch moves, and the rest of the step follows; why it may move can show only then. -/
theorem Steps.put_then {i : Nat} {v v' : Watch M τ} (hv : w.objs.get i = some v) (h : Steps me rot (w.put i v') w')
    (hm : v.Move me rot w'.Over v') : Steps me rot w w' where
  ended := h.ended
  ids hids := h.ids fun j u hu => by
    obtain ⟨rfl, -⟩ | ⟨-, hold⟩ := OrdMap.get_set_some hu
    · exact hids _ _ hv
    · exact hids j u hold
  objs j u hu := by
    by_cases hj : j = i
    · subst hj
      cases hu.symm.trans hv
      obtain ⟨v'', hv'', hm'⟩ := h.objs j v' (OrdMap.get_set_self ..)
      exact ⟨v'', hv'', hm.trans hm'⟩
    · exact h.objs j u ((OrdMap.get_set_ne _ _ hj).trans hu)
  news j u hu := by
    obtain ⟨u', hu'⟩ | hnew := h.news j u hu
    · obtain ⟨rfl, -⟩ | ⟨-, hold⟩ := OrdMap.get_set_some hu'
      · exact .inl ⟨v, hv⟩
      · exact .inl ⟨u', hold⟩
    · exact .inr hnew

theorem Steps.put {i : Nat} {v v' : Watch M τ} (hv : w.objs.get i = some v) (hm : v.Move me rot w.Over v') :
    Steps me rot w (w.put i v') :=
  .put_then hv (.refl _) hm

theorem Steps.change {i : Nat} {f : Watch M τ → Watch M τ} (hf : ∀ v : Watch M τ, v.Move me rot w.Over (f v)) :
    Steps me rot w (w.change i f).1 := by
  rw [Window.change]
  split
  · exact .refl w
  · exact .put ‹_› (hf _)

/-! ## Stopping watches -/

omit [DecidableEq τ] in
theorem stopWatch_eq (w : Window M τ) (i : Nat) :
    (w.stopWatch i).1 = w ∧ w.objs.get i = none ∨ ∃ v, w.objs.get i = some v ∧ (w.stopWatch i).1 = w.put i v.stop := by
  rw [stopWatch]
  cases h : w.objs.get i with
  | none => exact .inl ⟨rfl, rfl⟩
  | some v => exact .inr ⟨v, rfl, rfl⟩

/-- Only objects change when watches are stopped. -/
theorem stopWatches_same (w : Window M τ) (is : List Nat) :
    (w.stopWatches is).1.taken = w.taken ∧ (w.stopWatches is).1.stopped = w.stopped ∧
      (w.stopWatches is).1.fresh = w.fresh := by
  induction is generalizing w with
  | nil => exact ⟨rfl, rfl, rfl⟩
  | cons i is ih =>
      obtain ⟨ht, hs, hf⟩ := ih (w.stopWatch i).1
      have hi : (w.stopWatch i).1.taken = w.taken ∧ (w.stopWatch i).1.stopped = w.stopped ∧
          (w.stopWatch i).1.fresh = w.fresh := by
        obtain ⟨heq, -⟩ | ⟨v, -, heq⟩ := stopWatch_eq w i
        · rw [heq]
          exact ⟨rfl, rfl, rfl⟩
        · rw [heq]
          exact ⟨rfl, rfl, rfl⟩
      exact ⟨ht.trans hi.1, hs.trans hi.2.1, hf.trans hi.2.2⟩

theorem Steps.stopWatches (hrot : Stoppable rot) {is : List Nat}
    (hwhy : ∀ i ∈ is, ∀ v, w.objs.get i = some v → w.Over ∨ rot v) : Steps me rot w (w.stopWatches is).1 := by
  induction is generalizing w with
  | nil => exact .refl w
  | cons i is ih =>
      rw [Window.stopWatches, Prod.map_fst, id]
      obtain ⟨heq, -⟩ | ⟨v, hv, heq⟩ := stopWatch_eq w i
      · rw [heq]
        exact ih fun j hj => hwhy j (List.mem_cons_of_mem i hj)
      · rw [heq]
        refine (Steps.put hv (.stop (hwhy i List.mem_cons_self v hv))).trans (ih fun j hj u hu => ?_)
        obtain ⟨rfl, rfl⟩ | ⟨-, hold⟩ := OrdMap.get_set_some hu
        · exact (hwhy _ List.mem_cons_self v hv).imp_right (hrot.stop v)
        · exact hwhy j (List.mem_cons_of_mem i hj) u hold

theorem Steps.stopAll (hrot : Stoppable rot) (hover : w.Over) : Steps me rot w w.stopAll.1 := by
  refine (Steps.stopWatches hrot fun _ _ _ _ => .inl hover).trans (.of_objs rfl id le_rfl)

/-! ## The rotation -/

theorem Steps.rotateOff (hrot : Stoppable rot) {dates : List Date}
    (hwhy : ∀ e ∈ w.expired dates, ∀ v, w.objs.get e.2 = some v → rot v) : Steps me rot w (w.rotateOff dates).1 := by
  have hstop : Steps me rot w (w.stopWatches ((w.expired dates).map Prod.snd)).1 := by
    refine .stopWatches hrot fun i hi v hv => ?_
    obtain ⟨e, he, rfl⟩ := List.mem_map.mp hi
    exact .inr (hwhy e he v hv)
  exact hstop.trans (.of_objs rfl id le_rfl)

omit [DecidableEq τ] in
/-- `proceed` comes to its last loop if every day left has a watch. -/
theorem proceed_eq (w : Window M τ) (dates rest : List Date) :
    rest.all w.watches.has = true ∧ w.proceed dates rest = w.rotateOff dates ∨
      rest.all w.watches.has = false ∧ ∃ s, w.proceed dates rest = ({ w with syncing := some s }, []) := by
  induction rest with
  | nil => exact .inl ⟨rfl, rfl⟩
  | cons d rest ih =>
      rw [proceed, List.all_cons]
      cases hd : w.watches.has d with
      | true => simpa using ih
      | false => exact .inr ⟨rfl, _, rfl⟩

omit [DecidableEq τ] in
theorem Steps.startWatch (hids : w.Ids) (d : Date) : Steps me rot w (w.startWatch C d).1 := by
  have hnew : ∀ i v, w.objs.get i = some v → i ≠ w.fresh := fun i v hv => (hids i v hv).ne
  constructor
  · exact id
  · intro _ i v hv
    obtain ⟨rfl, -⟩ | ⟨-, hold⟩ := OrdMap.get_set_some hv
    · exact Nat.lt_succ_self _
    · exact (hids i v hold).trans (Nat.lt_succ_self _)
  · intro i v hv
    exact ⟨v, (OrdMap.get_set_ne _ _ (hnew i v hv)).trans hv, .refl v⟩
  · intro i v hv
    obtain ⟨rfl, rfl⟩ | ⟨-, hold⟩ := OrdMap.get_set_some hv
    · exact .inr ⟨_, _, .refl _⟩
    · exact .inl ⟨v, hold⟩

/-- The days that keep their watches, where the event takes `sync` to its last loop. -/
def ends (C : Config M τ) (w : Window M τ) : Event τ → Option (List Date)
  | .sync now =>
    let dates := activeDatesForOffset now C.offsetMs C.overlapMs
    if w.stopped ∨ w.taken ∨ w.syncing.isSome then none
    else if dates.all w.watches.has then some dates
    else none
  | .derived ok =>
    match w.syncing with
    | none => none
    | some s =>
      if ok = false ∨ w.stopped ∨ w.taken ∨ w.watches.has s.next then none
      else if s.rest.all fun d => decide (d = s.next) || w.watches.has d then some s.dates
      else none
  | _ => none

/-- Every watch that the event rotates off may be stopped. -/
def Rotates (C : Config M τ) (rot : Watch M τ → Prop) (w : Window M τ) (e : Event τ) : Prop :=
  ∀ dates ∈ w.ends C e, ∀ o ∈ w.expired dates, ∀ v ∈ w.objs.get o.2, rot v

theorem Steps.sync (hrot : Stoppable rot) {now : Time} (hwhy : w.Rotates C rot (.sync now)) :
    Steps me rot w (w.sync C now).1 := by
  rw [Window.sync]
  by_cases hgo : w.stopped ∨ w.taken ∨ w.syncing.isSome
  · rw [if_pos hgo]
    exact .refl w
  · rw [if_neg hgo]
    dsimp only
    obtain ⟨hall, heq⟩ | ⟨-, s, heq⟩ := w.proceed_eq (activeDatesForOffset now C.offsetMs C.overlapMs)
      (activeDatesForOffset now C.offsetMs C.overlapMs)
    · rw [heq]
      have hends : w.ends C (.sync now) = some (activeDatesForOffset now C.offsetMs C.overlapMs) := by
        rw [ends, if_neg hgo, if_pos hall]
      exact .rotateOff hrot fun o ho v hv => hwhy _ hends o ho v hv
    · rw [heq]
      exact .of_objs rfl id le_rfl

theorem Steps.derived (hrot : Stoppable rot) (hids : w.Ids) {ok : Bool} (hwhy : w.Rotates C rot (.derived ok)) :
    Steps me rot w (w.derived C ok).1 := by
  rw [Window.derived]
  cases hs : w.syncing with
  | none => exact .refl w
  | some s =>
      dsimp only
      by_cases hgo : ok = false ∨ w.stopped ∨ w.taken ∨ w.watches.has s.next
      · rw [if_pos hgo]
        exact .of_objs rfl id le_rfl
      · rw [if_neg hgo, Prod.map_fst, id]
        have hstart : Steps me rot w (w.startWatch C s.next).1 := .startWatch hids s.next
        refine hstart.trans ?_
        obtain ⟨hall, heq⟩ | ⟨-, s', heq⟩ := (w.startWatch C s.next).1.proceed_eq s.dates s.rest
        · rw [heq]
          have hends : w.ends C (.derived ok) = some s.dates := by
            rw [ends, hs]
            dsimp only
            rw [if_neg hgo, if_pos]
            rw [← hall]
            congr 1
            funext d
            exact (OrdMap.has_set _ _ _ _).symm
          refine .rotateOff hrot fun o ho v hv => ?_
          obtain ⟨hin, hout⟩ := List.mem_filter.mp ho
          obtain ⟨-, rfl⟩ | ⟨-, hv⟩ := OrdMap.get_set_some hv
          · exact hrot.start _ _
          · obtain ⟨-, hnext⟩ | ⟨-, hold⟩ := OrdMap.get_set_some (OrdMap.get_eq_some.mpr hin)
            · exact absurd hnext (hids _ _ hv).ne
            · exact hwhy _ hends o (List.mem_filter.mpr ⟨OrdMap.get_eq_some.mp hold, hout⟩) v hv
        · rw [heq]
          exact .of_objs rfl id le_rfl

/-! ## A step -/

omit [DecidableEq τ] in
/-- `onTakenOver` and what comes with it. -/
theorem onTaken_eq (w : Window M τ) (p : String) : w.Over ∧ w.onTaken p = (w, []) ∨
    w.taken = false ∧ w.onTaken p = ({ w with taken := true }.stopAll.1, { w with taken := true }.stopAll.2 ++ [.takenOver p]) := by
  rw [onTaken]
  by_cases ho : w.taken ∨ w.stopped
  · exact .inl ⟨ho, if_pos ho⟩
  · exact .inr ⟨Bool.eq_false_of_not_eq_true fun h => ho (.inl h), if_neg ho⟩

theorem onTaken_over (w : Window M τ) (p : String) : (w.onTaken p).1.Over := by
  obtain ⟨ho, heq⟩ | ⟨-, heq⟩ := w.onTaken_eq p
  · rw [heq]
    exact ho
  · rw [heq]
    exact .inl (stopWatches_same _ _).1

theorem Steps.onTaken (hrot : Stoppable rot) (w : Window M τ) (p : String) : Steps me rot w (w.onTaken p).1 := by
  obtain ⟨-, heq⟩ | ⟨-, heq⟩ := w.onTaken_eq p
  · rw [heq]
    exact .refl w
  · rw [heq]
    have hset : Steps me rot w { w with taken := true } := .of_objs rfl (fun _ => .inl rfl) le_rfl
    exact hset.trans (.stopAll hrot (.inl rfl))

omit [DecidableEq τ] in
/-- What `left` does: the watch that steps down is stopped, and its window with it. -/
theorem left_eq (w : Window M τ) (i : Nat) : w.left i = (w, []) ∨ ∃ v p, w.objs.get i = some v ∧ v.leaving.isSome = true ∧
    w.left i = ((w.put i { v with done := true, leaving := none }.stop).onTaken p).map id (.unsubscribe v.topic :: ·) := by
  rw [left]
  cases hv : w.objs.get i with
  | none => exact .inl rfl
  | some v =>
      dsimp only
      cases hl : v.leaving with
      | none => exact .inl rfl
      | some l => exact .inr ⟨v, l.1, rfl, by rw [hl]; rfl, rfl⟩

theorem Steps.left (hrot : Stoppable rot) (i : Nat) : Steps me rot w (w.left i).1 := by
  obtain heq | ⟨v, p, hv, hl, heq⟩ := w.left_eq i
  · rw [heq]
    exact .refl w
  · rw [heq, Prod.map_fst, id]
    -- the window is over by the end of the step, which is why the watch may stop
    exact .put_then hv (.onTaken hrot _ p) (.left hl (onTaken_over _ p))

theorem Steps.closed (hrot : Stoppable rot) (w : Window M τ) : Steps me rot w w.stop.1 := by
  have hset : Steps me rot w { w with stopped := true } := .of_objs rfl (fun _ => .inr rfl) le_rfl
  exact hset.trans (.stopAll hrot (.inr rfl))

theorem Steps.announced (i : Nat) (nonce : String) (ts : Time) : Steps me rot w (w.announced me i nonce ts).1 := by
  rw [Window.announced]
  cases hv : w.objs.get i with
  | none => exact .refl w
  | some v =>
      dsimp only
      split
      · exact .refl w
      · exact .put hv (.announcing v _)

theorem Steps.farewell (i : Nat) (nonce : String) (ts : Time) : Steps me rot w (w.farewell me i nonce ts).1 := by
  rw [Window.farewell]
  cases hv : w.objs.get i with
  | none => exact .refl w
  | some v =>
      dsimp only
      split
      · exact .put hv (.farewell ‹_›)
      · exact .refl w

/-- A step that brings no frame, where what it rotates off may be stopped. -/
theorem Steps.step (hrot : Stoppable rot) (hids : w.Ids) {e : Event τ} (hwhy : w.Rotates C rot e)
    (he : ∀ topic frm data now, e ≠ .message topic frm data now) : Steps me rot w (w.step C me e).1 := by
  cases e with
  | message topic frm data now => exact absurd rfl (he topic frm data now)
  | sync now => exact .sync hrot hwhy
  | derived ok => exact .derived hrot hids hwhy
  | verified i n now =>
      refine .change fun v => ?_
      cases hn : v.verifying[n]? with
      | none => exact .refl v
      | some res => exact .verified now hn
  | settle i =>
      refine .change fun v => ?_
      by_cases hs : v.settling = true
      · rw [if_pos hs]
        exact .settle hs
      · rw [if_neg hs]
        exact .refl v
  | heartbeat i =>
      refine .change fun v => ?_
      split
      · exact .announcing v _
      · exact .refl v
  | announced i nonce ts => exact .announced i nonce ts
  | farewell i nonce ts => exact .farewell i nonce ts
  | left i => exact .left hrot i
  | stop => exact .closed hrot w

theorem get_message {topic : τ} {frm : String} {data : Option Json} {now : Time} {i : Nat} {v' : Watch M τ} :
    (w.message me topic frm data now).1.objs.get i = some v' ↔
      ∃ v, w.objs.get i = some v ∧ v.onMessage me topic frm data now = v' := by
  rw [message, OrdMap.get_map]
  exact Option.map_eq_some_iff

/-- A step brings a frame, or is one of the others. -/
theorem message_or_steps (me : String) (hrot : Stoppable rot) (hids : w.Ids) {e : Event τ} (hwhy : w.Rotates C rot e) :
    (∃ topic frm data now, e = .message topic frm data now) ∨ Steps me rot w (w.step C me e).1 := by
  by_cases he : ∃ topic frm data now, e = .message topic frm data now
  · exact .inl he
  · exact .inr (.step hrot hids hwhy fun topic frm data now heq => he ⟨topic, frm, data, now, heq⟩)

omit [DecidableEq τ] in
theorem Stoppable.all : Stoppable (fun _ : Watch M τ => True) := ⟨fun _ _ => trivial, fun _ _ => trivial⟩

/-! ## Who is told -/

/-- The calls of `onTakenOver`. -/
def notices (outs : List (Out M τ)) : List String :=
  outs.filterMap fun o => match o with
    | .takenOver p => some p
    | _ => none

omit [DecidableEq τ] in
theorem notices_append (a b : List (Out M τ)) : notices (a ++ b) = notices a ++ notices b := List.filterMap_append

/-- Nobody is told, and the window is as much taken over as before. -/
def Silent (w : Window M τ) (r : Window M τ × List (Out M τ)) : Prop := notices r.2 = [] ∧ r.1.taken = w.taken

theorem Silent.stopWatches (w : Window M τ) (is : List Nat) : Silent w (w.stopWatches is) := by
  refine ⟨?_, (stopWatches_same w is).1⟩
  induction is generalizing w with
  | nil => rfl
  | cons i is ih =>
      have hone : notices (w.stopWatch i).2 = [] := by
        rw [stopWatch]
        split <;> rfl
      rw [Window.stopWatches, Prod.map_snd, notices_append, hone, ih]
      rfl

theorem Silent.stopAll (w : Window M τ) : Silent w w.stopAll := Silent.stopWatches w _

theorem Silent.proceed (w : Window M τ) (dates rest : List Date) : Silent w (w.proceed dates rest) := by
  obtain ⟨-, heq⟩ | ⟨-, s, heq⟩ := w.proceed_eq dates rest
  · rw [heq]
    exact Silent.stopWatches w _
  · rw [heq]
    exact ⟨rfl, rfl⟩

theorem Silent.sync (w : Window M τ) (now : Time) : Silent w (w.sync C now) := by
  rw [Window.sync]
  split
  · exact ⟨rfl, rfl⟩
  · exact .proceed w _ _

theorem Silent.derived (w : Window M τ) (ok : Bool) : Silent w (w.derived C ok) := by
  rw [Window.derived]
  split
  · exact ⟨rfl, rfl⟩
  · split
    · exact ⟨rfl, rfl⟩
    · exact Silent.proceed (w.startWatch C _).1 _ _

omit [DecidableEq τ] in
theorem Silent.change (w : Window M τ) (i : Nat) (f : Watch M τ → Watch M τ) : Silent w (w.change i f) := by
  rw [Window.change]
  split <;> exact ⟨rfl, rfl⟩

omit [DecidableEq τ] in
theorem Silent.announced (w : Window M τ) (i : Nat) (nonce : String) (ts : Time) : Silent w (w.announced me i nonce ts) := by
  rw [Window.announced]
  split
  · exact ⟨rfl, rfl⟩
  · split <;> exact ⟨rfl, rfl⟩

omit [DecidableEq τ] in
theorem Silent.farewell (w : Window M τ) (i : Nat) (nonce : String) (ts : Time) : Silent w (w.farewell me i nonce ts) := by
  rw [Window.farewell]
  split
  · exact ⟨rfl, rfl⟩
  · split <;> exact ⟨rfl, rfl⟩

/-- A window is told of once, by the step that takes it over, and only when a watch of it stepped down. -/
theorem step_notices (me : String) (w : Window M τ) (e : Event τ) : Silent w (w.step C me e) ∨
    w.taken = false ∧ (w.step C me e).1.taken = true ∧ (∃ p, notices (w.step C me e).2 = [p]) ∧
      ∃ i v, w.objs.get i = some v ∧ v.leaving.isSome = true := by
  cases e with
  | sync now => exact .inl (.sync w now)
  | derived ok => exact .inl (.derived w ok)
  | message topic frm data now => exact .inl ⟨rfl, rfl⟩
  | verified i n now => exact .inl (.change w i _)
  | settle i => exact .inl (.change w i _)
  | heartbeat i => exact .inl (.change w i _)
  | announced i nonce ts => exact .inl (.announced w i nonce ts)
  | farewell i nonce ts => exact .inl (.farewell w i nonce ts)
  | stop => exact .inl (Silent.stopAll { w with stopped := true })
  | left i =>
      rw [step]
      obtain heq | ⟨v, p, hv, hl, heq⟩ := w.left_eq i
      · rw [heq]
        exact .inl ⟨rfl, rfl⟩
      · rw [heq]
        obtain ⟨-, htaken⟩ | ⟨hfree, htaken⟩ := (w.put i { v with done := true, leaving := none }.stop).onTaken_eq p
        · rw [htaken]
          exact .inl ⟨rfl, rfl⟩
        · rw [htaken]
          obtain ⟨hsilent, hset⟩ := Silent.stopAll
            ({ w.put i { v with done := true, leaving := none }.stop with taken := true } : Window M τ)
          refine .inr ⟨hfree, hset, ⟨p, ?_⟩, i, v, hv, hl⟩
          rw [Prod.map_snd]
          exact (notices_append _ _).trans (congrArg (· ++ [p]) hsilent)

/-! ## What is under way comes to its end -/

/-- Something that a watch waits for: a verification, its settle timer, or its farewell. -/
def Completes (i : Nat) : Event τ → Prop
  | .verified j _ _ | .settle j | .left j => j = i
  | _ => False

def run (C : Config M τ) (me : String) (w : Window M τ) (es : List (Event τ)) : Window M τ :=
  es.foldl (fun w e => (w.step C me e).1) w

/-- Nothing more than what the watch waits for takes its window over. -/
def Ends (C : Config M τ) (me : String) (w : Window M τ) (i : Nat) : Prop :=
  ∃ es : List (Event τ), (∀ e ∈ es, Completes i e) ∧ (w.run C me es).taken = true

theorem Ends.of_step {i : Nat} {e : Event τ} (he : Completes i e) (h : Ends C me (w.step C me e).1 i) : Ends C me w i := by
  obtain ⟨es, hes, htaken⟩ := h
  exact ⟨e :: es, List.forall_mem_cons.mpr ⟨he, hes⟩, htaken⟩

omit [DecidableEq τ] in
theorem get_change {i : Nat} {v : Watch M τ} (hv : w.objs.get i = some v) (f : Watch M τ → Watch M τ) :
    (w.change i f).1 = w.put i (f v) ∧ (w.put i (f v)).objs.get i = some (f v) := by
  rw [change, hv]
  exact ⟨rfl, OrdMap.get_set_self ..⟩

variable {i : Nat} {v : Watch M τ}

theorem ends_of_leaving (hv : w.objs.get i = some v) (hl : v.leaving.isSome = true) (ho : ¬w.Over) : Ends C me w i := by
  refine .of_step (e := .left i) rfl ⟨[], List.forall_mem_nil _, ?_⟩
  obtain heq | ⟨u, p, hu, -, heq⟩ := w.left_eq i
  · obtain ⟨l, hl⟩ := Option.isSome_iff_exists.mp hl
    rw [left, hv] at heq
    dsimp only at heq
    rw [hl] at heq
    have := congrArg (fun r => r.2.length) heq
    simp at this
  · change (w.left i).1.taken = true
    rw [heq, Prod.map_fst, id]
    obtain ⟨hover, -⟩ | ⟨-, heq⟩ := (w.put i { u with done := true, leaving := none }.stop).onTaken_eq p
    · exact absurd hover ho
    · rw [heq]
      exact (Silent.stopAll _).2

theorem ends_of_stepping (hv : w.objs.get i = some v) (hf : v.Fine me w.Over) (hs : v.stepping = true) (ho : ¬w.Over) :
    Ends C me w i :=
  ends_of_leaving hv ((hf.steps hs).resolve_right ho) ho

theorem stepping_stepDown {v : Watch M τ} (h : v.Leaves) (p : String) : (v.stepDown p).stepping = true := by
  obtain ⟨heq, hwhy⟩ | ⟨heq, -⟩ := Watch.stepDown_eq v p
  · rw [heq]
    exact hwhy.elim (fun hd => h (.inl hd)) id
  · rw [heq]

/-- A frame that waits, in a watch that has settled. -/
theorem ends_of_waits (hv : w.objs.get i = some v) (hf : v.Fine me w.Over) (hw : v.Waits me) (hs : v.settled = true)
    (ho : ¬w.Over) : Ends C me w i := by
  obtain ⟨p, nonce, hmem, hne⟩ := hw
  obtain ⟨n, hn⟩ := List.mem_iff_getElem?.mp hmem
  obtain ⟨-, hget⟩ := get_change hv fun v => { v with verifying := v.verifying.eraseIdx n }.onVerified me (.ok (p, nonce)) 0
  have hstep : (w.step C me (.verified i n 0)).1 =
      w.put i ({ v with verifying := v.verifying.eraseIdx n }.onVerified me (.ok (p, nonce)) 0) := by
    simp only [step, verified, change, hv, hn]
  have hfine := hf.verified 0 hn
  obtain ⟨-, hskip⟩ | ⟨_, _, -, -, ⟨-, hnew⟩ | ⟨hun, -⟩⟩ :=
    Watch.onVerified_eq me { v with verifying := v.verifying.eraseIdx n } (.ok (p, nonce)) 0
  · -- the nonce is known: what brought it made the watch step down
    have hseen : v.seenNonces.entries ≠ [] := by
      intro hnil
      obtain ⟨_, hget⟩ := Option.isSome_iff_exists.mp ((hskip p nonce rfl).resolve_left hne)
      have := OrdMap.get_eq_some.mp hget
      rw [hnil] at this
      exact List.not_mem_nil this
    have hstepping : v.stepping = true := by
      obtain hp | hst := hf.seen hseen
      · obtain ht | hst | hover := hf.noted hp
        · cases (hf.timer ht).symm.trans hs
        · exact hst
        · exact absurd hover ho
      · exact hst
    exact ends_of_stepping hv hf hstepping ho
  · refine .of_step (e := .verified i n 0) rfl ?_
    rw [hstep]
    refine ends_of_stepping hget hfine ?_ ho
    rw [hnew]
    apply stepping_stepDown
    exact hf.leaves
  · cases hun.symm.trans hs

/-- A watch on its way takes its window over, with no more than what it waits for. -/
theorem ends_of_onItsWay (hv : w.objs.get i = some v) (hf : v.Fine me w.Over) (h : v.OnItsWay me) (ho : ¬w.Over) :
    Ends C me w i := by
  have hsettle : v.settling = true → v.Waits me ∨ v.preexisting ≠ [] → Ends C me w i := by
    intro hs hwhy
    obtain ⟨heq, hget⟩ := get_change hv fun v => if v.settling then v.settle else v
    rw [if_pos hs] at heq hget
    refine .of_step (e := .settle i) rfl ?_
    rw [show (w.step C me (.settle i)).1 = _ from heq]
    have hfine := hf.settle hs
    obtain ⟨hnone, hnew⟩ | ⟨-, p, hnew⟩ := v.settle_eq
    · have hw : v.Waits me := hwhy.resolve_right fun hp => hp hnone
      refine ends_of_waits hget hfine ?_ (by rw [hnew]) ho
      rw [hnew]
      exact hw
    · refine ends_of_stepping hget hfine ?_ ho
      rw [hnew]
      apply stepping_stepDown
      exact hf.leaves
  obtain ⟨hw, hs | hs⟩ | ⟨hp, hs⟩ | hl := h
  · exact hsettle hs (.inl hw)
  · exact ends_of_waits hv hf hw hs ho
  · exact hsettle hs (.inr hp)
  · exact ends_of_leaving hv hl ho

end Window

end EncedoChat.SelfSession
