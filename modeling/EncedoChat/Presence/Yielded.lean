import EncedoChat.Lib.OrdMap
import EncedoChat.Lib.Run
import EncedoChat.Presence.Rotation

/-!
# Decoy subscriptions

`startDecoys` of `lib/decoy.ts`. A `resize` starts one decoy after another, each after derivations that it awaits; what
`resize` has looked at may have changed by then.
-/

namespace EncedoChat.Presence

def DECOY_MAX : Nat := 8

/-- How many decoys a client with `contacts` contacts holds. -/
def decoyCount (contacts : Int) : Int := max 0 (min contacts DECOY_MAX)

/-- The watch of one decoy: the days whose topics it holds. -/
structure Decoy where
  index : Nat
  days : List Date
  stopped : Bool
  deriving DecidableEq

/-- A `resize` that awaits the start of a decoy. -/
structure Resize where
  want : Nat
  index : Nat
  deriving DecidableEq

structure Decoys (T : Type) where
  /-- the decoys' topics on the node -/
  subscribed : List T
  decoys : List Decoy
  running : OrdMap Nat Nat
  yielded : Bool
  stopped : Bool
  calls : List Resize

namespace Decoys

inductive Event where
  | resize (n : Int)
  /-- what a `resize` awaits is there, or has failed -/
  | resume (k : Nat) (ok : Bool)
  | yieldAll
  | stop
  /-- a watch has the keys of a day -/
  | derived (i : Nat) (d : Date)
  /-- a day of a watch is over -/
  | dropped (i : Nat) (d : Date)

variable {T : Type} [DecidableEq T] (topic : Nat → Date → T) (s : Decoys T)

def start : Decoys T := ⟨[], [], .empty, false, false, []⟩

def unsubscribe (t : T) : Decoys T := { s with subscribed := s.subscribed.filter (· ≠ t) }

/-- `watch.stop(true)` -/
def stopWatch (i : Nat) : Decoys T :=
  match s.decoys[i]? with
  | none => s
  | some w =>
    { s with
      subscribed := s.subscribed.filter fun t => t ∉ w.days.map (topic w.index)
      decoys := s.decoys.set i { w with days := [], stopped := true } }

def stopWatches (ws : List Nat) : Decoys T := ws.foldl (stopWatch topic) s

/-- The end of a `resize`: decoys that are too many. -/
def shrink (want : Nat) : Decoys T :=
  let s := s.stopWatches topic ((s.running.entries.filter fun r => want ≤ r.1).map Prod.snd)
  { s with running := s.running.filter fun i _ => i < want }

/-- The loop of a `resize` over the indices that it still has, up to its next await. -/
def startFrom (want : Nat) : List Nat → Decoys T
  | [] => s.shrink topic want
  | i :: todo => if s.running.has i then startFrom want todo else { s with calls := s.calls ++ [⟨want, i⟩] }

def resize (n : Int) : Decoys T :=
  if s.stopped || s.yielded then s
  else
    let want := (decoyCount n).toNat
    s.startFrom topic want (List.range want)

/-- The end of `startOne`. -/
def add (i : Nat) : Decoys T :=
  { s with decoys := s.decoys ++ [⟨i, [], false⟩], running := s.running.set i s.decoys.length }

def resume (k : Nat) (ok : Bool) : Decoys T :=
  match s.calls[k]? with
  | none => s
  | some c =>
    let s := { s with calls := s.calls.eraseIdx k }
    if ok then (s.add c.index).startFrom topic c.want (List.range' (c.index + 1) (c.want - (c.index + 1))) else s

def yieldAll : Decoys T :=
  if s.yielded then s
  else { s.stopWatches topic (s.running.entries.map Prod.snd) with yielded := true, running := .empty }

def stop : Decoys T := { s.stopWatches topic (s.running.entries.map Prod.snd) with stopped := true, running := .empty }

def derived (i : Nat) (d : Date) : Decoys T :=
  match s.decoys[i]? with
  | none => s
  | some w =>
    if w.stopped then s
    else
      { s with
        subscribed := s.subscribed.insert (topic w.index d)
        decoys := s.decoys.set i { w with days := d :: w.days } }

def dropped (i : Nat) (d : Date) : Decoys T :=
  match s.decoys[i]? with
  | none => s
  | some w =>
    if d ∈ w.days then
      { s.unsubscribe (topic w.index d) with decoys := s.decoys.set i { w with days := w.days.filter (· ≠ d) } }
    else s

def act : Event → Decoys T
  | .resize n => s.resize topic n
  | .resume k ok => s.resume topic k ok
  | .yieldAll => s.yieldAll topic
  | .stop => s.stop topic
  | .derived i d => s.derived topic i d
  | .dropped i d => s.dropped topic i d

/-! ## What is asked of them -/

/-- A decoy that runs. -/
def Runs (i : Nat) (w : Decoy) : Prop := s.decoys[i]? = some w ∧ w.stopped = false

/-- Each index runs at most once and at most `DECOY_MAX` run; after a yield or the stop none does, and no topic of theirs is
left on the node. -/
structure Yields : Prop where
  once : ∀ i j v w, s.Runs i v → s.Runs j w → v.index = w.index → i = j
  few : (s.decoys.filter fun w => !w.stopped).length ≤ DECOY_MAX
  gone : s.yielded = true ∨ s.stopped = true → (∀ i w, ¬ s.Runs i w) ∧ s.subscribed = []

/-- When the derivations of a decoy are there, nobody has yielded or stopped, and its index does not run. -/
def Fresh : Event → Prop
  | .resume k true => ∀ c, s.calls[k]? = some c →
      s.yielded = false ∧ s.stopped = false ∧ s.running.has c.index = false
  | _ => True

end Decoys

end EncedoChat.Presence

/-!
# Decoys that yield

What runs is what is in `running`, as long as no decoy comes that nobody would stop any more.
-/

namespace EncedoChat.Presence.Decoys

variable {T : Type} [DecidableEq T] {topic : Nat → Date → T} {s z : Decoys T}

/-- A decoy of an index runs. -/
def Live (s : Decoys T) (k i : Nat) : Prop := ∃ w, s.Runs i w ∧ w.index = k

/-- What is on the node is a day's topic of a decoy that runs. -/
def Held (topic : Nat → Date → T) (s : Decoys T) : Prop :=
  ∀ t ∈ s.subscribed, ∃ i w, s.Runs i w ∧ t ∈ w.days.map (topic w.index)

/-! ## Decoys that stop -/

theorem runs_stopWatch (i : Nat) {j : Nat} {w : Decoy} : (s.stopWatch topic i).Runs j w ↔ s.Runs j w ∧ j ≠ i := by
  unfold stopWatch Runs
  cases hi : s.decoys[i]? with
  | none =>
      refine ⟨fun h => ⟨h, ?_⟩, And.left⟩
      rintro rfl
      rw [hi] at h
      cases h.1
  | some v =>
      obtain ⟨hlt, -⟩ := List.getElem?_eq_some_iff.mp hi
      dsimp only
      by_cases hj : i = j
      · subst hj
        rw [List.getElem?_set_self hlt]
        constructor
        · rintro ⟨hw, hrun⟩
          obtain rfl := Option.some.inj hw
          cases hrun
        · exact fun h => absurd rfl h.2
      · rw [List.getElem?_set_ne hj]
        exact ⟨fun h => ⟨h, Ne.symm hj⟩, And.left⟩

theorem runs_stopWatches (ws : List Nat) {j : Nat} {w : Decoy} :
    (s.stopWatches topic ws).Runs j w ↔ s.Runs j w ∧ j ∉ ws := by
  unfold stopWatches
  induction ws generalizing s with
  | nil => simp
  | cons i ws ih => rw [List.foldl_cons, ih, runs_stopWatch, List.mem_cons, not_or, and_assoc]

/-- What decoys that stop leave alone. -/
theorem rest_stopWatches (ws : List Nat) : (s.stopWatches topic ws).running = s.running ∧
    (s.stopWatches topic ws).yielded = s.yielded ∧ (s.stopWatches topic ws).stopped = s.stopped ∧
    (s.stopWatches topic ws).calls = s.calls := by
  unfold stopWatches
  induction ws generalizing s with
  | nil => exact ⟨rfl, rfl, rfl, rfl⟩
  | cons i ws ih =>
      obtain ⟨h₁, h₂, h₃, h₄⟩ := ih (s := s.stopWatch topic i)
      have hone : (s.stopWatch topic i).running = s.running ∧ (s.stopWatch topic i).yielded = s.yielded ∧
          (s.stopWatch topic i).stopped = s.stopped ∧ (s.stopWatch topic i).calls = s.calls := by
        unfold stopWatch
        split <;> exact ⟨rfl, rfl, rfl, rfl⟩
      exact ⟨h₁.trans hone.1, h₂.trans hone.2.1, h₃.trans hone.2.2.1, h₄.trans hone.2.2.2⟩

theorem Held.stopWatch (h : s.Held topic) (i : Nat) : (s.stopWatch topic i).Held topic := by
  intro t ht
  have hsplit : t ∈ s.subscribed ∧ ∀ v, s.decoys[i]? = some v → t ∉ v.days.map (topic v.index) := by
    unfold Decoys.stopWatch at ht
    cases hi : s.decoys[i]? with
    | none =>
        rw [hi] at ht
        exact ⟨ht, nofun⟩
    | some v =>
        rw [hi] at ht
        obtain ⟨hin, hnot⟩ := List.mem_filter.mp ht
        refine ⟨hin, fun v' hv' => ?_⟩
        obtain rfl := Option.some.inj hv'
        exact of_decide_eq_true hnot
  obtain ⟨j, w, hw, hd⟩ := h t hsplit.1
  refine ⟨j, w, (runs_stopWatch i).mpr ⟨hw, ?_⟩, hd⟩
  rintro rfl
  exact hsplit.2 w hw.1 hd

theorem Held.stopWatches (h : s.Held topic) (ws : List Nat) : (s.stopWatches topic ws).Held topic := by
  unfold Decoys.stopWatches
  induction ws generalizing s with
  | nil => exact h
  | cons i ws ih => exact ih (h.stopWatch i)

theorem live_stopWatches (ws : List Nat) {k j : Nat} : (s.stopWatches topic ws).Live k j ↔ s.Live k j ∧ j ∉ ws := by
  unfold Live
  simp only [runs_stopWatches]
  constructor
  · rintro ⟨w, ⟨hw, hnot⟩, hk⟩
    exact ⟨⟨w, hw, hk⟩, hnot⟩
  · rintro ⟨⟨w, hw, hk⟩, hnot⟩
    exact ⟨w, ⟨hw, hnot⟩, hk⟩

omit [DecidableEq T] in
/-- A decoy has one index. -/
theorem Live.index {k k' j : Nat} (h : s.Live k j) (h' : s.Live k' j) : k = k' := by
  obtain ⟨w, hw, rfl⟩ := h
  obtain ⟨w', hw', rfl⟩ := h'
  rw [Option.some.inj (hw.1.symm.trans hw'.1)]

omit [DecidableEq T] in
theorem Live.lt {k j : Nat} (h : s.Live k j) : j < s.decoys.length := by
  obtain ⟨w, hw, -⟩ := h
  exact (List.getElem?_eq_some_iff.mp hw.1).1

omit [DecidableEq T] in
theorem live_add {i k j : Nat} : (s.add i).Live k j ↔ s.Live k j ∨ k = i ∧ j = s.decoys.length := by
  have hdecoys : (s.add i).decoys = s.decoys ++ [⟨i, [], false⟩] := rfl
  unfold Live Runs
  rw [hdecoys]
  rcases Nat.lt_trichotomy j s.decoys.length with hj | rfl | hj
  · rw [List.getElem?_append_left hj]
    simp [Nat.ne_of_lt hj]
  · rw [List.getElem?_concat_length, List.getElem?_eq_none (Nat.le_refl _)]
    constructor
    · rintro ⟨w, ⟨hw, -⟩, rfl⟩
      obtain rfl := Option.some.inj hw
      exact .inr ⟨rfl, rfl⟩
    · rintro (⟨w, ⟨hw, -⟩, -⟩ | ⟨rfl, -⟩)
      · cases hw
      · exact ⟨_, ⟨rfl, rfl⟩, rfl⟩
  · rw [List.getElem?_eq_none (by rw [List.length_append, List.length_singleton]; omega),
      List.getElem?_eq_none (Nat.le_of_lt hj)]
    simp [Nat.ne_of_gt hj]

/-- A `resize` comes to its end, or awaits one of its decoys. -/
theorem startFrom_cases (topic : Nat → Date → T) (s : Decoys T) (want : Nat) (todo : List Nat) :
    s.startFrom topic want todo = s.shrink topic want ∨
      ∃ j ∈ todo, s.startFrom topic want todo = { s with calls := s.calls ++ [⟨want, j⟩] } := by
  induction todo with
  | nil => exact .inl rfl
  | cons i todo ih =>
      rw [startFrom]
      split
      · exact ih.imp_right fun ⟨j, hj, heq⟩ => ⟨j, List.mem_cons_of_mem _ hj, heq⟩
      · exact .inr ⟨i, List.mem_cons_self, rfl⟩

/-! ## What runs is in the table -/

structure Inv (topic : Nat → Date → T) (s : Decoys T) : Prop where
  table : ∀ k i, s.running.get k = some i ↔ s.Live k i
  bound : ∀ k i, s.running.get k = some i → k < DECOY_MAX
  calls : ∀ c ∈ s.calls, c.index < c.want ∧ c.want ≤ DECOY_MAX
  gone : s.yielded = true ∨ s.stopped = true → ∀ k, s.running.get k = none
  held : s.Held topic

omit [DecidableEq T] in
theorem Inv.start : Inv topic (start : Decoys T) where
  table k i := by
    refine ⟨nofun, ?_⟩
    rintro ⟨w, ⟨hw, -⟩, -⟩
    cases hw
  bound k i h := by cases h
  calls c hc := by cases hc
  gone _ k := rfl
  held t ht := by cases ht

/-- Runs are counted by their indices. -/
theorem nodup_indices {l : List Decoy} {p : Decoy → Bool}
    (h : ∀ (i j : Nat) v w, l[i]? = some v → l[j]? = some w → p v = true → p w = true → v.index = w.index → i = j) :
    ((l.filter p).map Decoy.index).Nodup := by
  induction l with
  | nil => exact List.nodup_nil
  | cons a l ih =>
      have htail : ((l.filter p).map Decoy.index).Nodup := by
        refine ih fun i j v w hv hw hpv hpw heq => ?_
        exact Nat.succ.inj (h (i + 1) (j + 1) v w hv hw hpv hpw heq)
      by_cases ha : p a = true
      · rw [List.filter_cons_of_pos ha, List.map_cons, List.nodup_cons]
        refine ⟨fun hin => ?_, htail⟩
        obtain ⟨w, hw, heq⟩ := List.mem_map.mp hin
        obtain ⟨hwl, hpw⟩ := List.mem_filter.mp hw
        obtain ⟨j, hj⟩ := List.mem_iff_getElem?.mp hwl
        cases h 0 (j + 1) a w rfl hj ha hpw heq.symm
      · rwa [List.filter_cons_of_neg ha]

omit [DecidableEq T] in
theorem Inv.yields (h : Inv topic s) : s.Yields where
  once i j v w hv hw heq := by
    have hi := (h.table v.index i).mpr ⟨v, hv, rfl⟩
    have hj := (h.table v.index j).mpr ⟨w, hw, heq.symm⟩
    exact Option.some.inj (hi.symm.trans hj)
  few := by
    have hnd : ((s.decoys.filter fun w => !w.stopped).map Decoy.index).Nodup := by
      refine nodup_indices fun i j v w hv hw hpv hpw heq => ?_
      have hi := (h.table v.index i).mpr ⟨v, ⟨hv, by simpa using hpv⟩, rfl⟩
      have hj := (h.table v.index j).mpr ⟨w, ⟨hw, by simpa using hpw⟩, heq.symm⟩
      exact Option.some.inj (hi.symm.trans hj)
    have hsub : (s.decoys.filter fun w => !w.stopped).map Decoy.index ⊆ List.range DECOY_MAX := by
      intro k hk
      obtain ⟨w, hw, rfl⟩ := List.mem_map.mp hk
      obtain ⟨hwl, hrun⟩ := List.mem_filter.mp hw
      obtain ⟨i, hi⟩ := List.mem_iff_getElem?.mp hwl
      exact List.mem_range.mpr (h.bound _ i ((h.table _ i).mpr ⟨w, ⟨hi, by simpa using hrun⟩, rfl⟩))
    have hle := hnd.length_le_of_subset hsub
    rwa [List.length_map, List.length_range] at hle
  gone hgone := by
    have hnone : ∀ i w, ¬ s.Runs i w := by
      intro i w hw
      have hget := (h.table w.index i).mpr ⟨w, hw, rfl⟩
      rw [h.gone hgone] at hget
      cases hget
    refine ⟨hnone, List.eq_nil_iff_forall_not_mem.mpr fun t ht => ?_⟩
    obtain ⟨i, w, hw, -⟩ := h.held t ht
    exact hnone i w hw

/-- Everything stops and the table is emptied. -/
theorem Inv.clear (h : Inv topic s) (hdecoys : z.decoys = (s.stopWatches topic (s.running.entries.map Prod.snd)).decoys)
    (hsub : z.subscribed = (s.stopWatches topic (s.running.entries.map Prod.snd)).subscribed) (hrunning : z.running = .empty)
    (hcalls : z.calls = s.calls) : Inv topic z where
  table k i := by
    rw [hrunning]
    refine ⟨nofun, ?_⟩
    rintro ⟨w, hw, rfl⟩
    have hw' : (s.stopWatches topic (s.running.entries.map Prod.snd)).Runs i w := by
      rw [Runs, ← hdecoys]
      exact hw
    obtain ⟨hrun, hnot⟩ := (runs_stopWatches _).mp hw'
    have hmem := OrdMap.get_eq_some.mp ((h.table w.index i).mpr ⟨w, hrun, rfl⟩)
    exact absurd (List.mem_map.mpr ⟨_, hmem, rfl⟩) hnot
  bound k i hget := by
    rw [hrunning] at hget
    cases hget
  calls := hcalls ▸ h.calls
  gone _ k := by rw [hrunning]; rfl
  held t ht := by
    obtain ⟨i, w, hw, hd⟩ := h.held.stopWatches (s.running.entries.map Prod.snd) t (hsub ▸ ht)
    refine ⟨i, w, ?_, hd⟩
    rw [Runs, hdecoys]
    exact hw

omit [DecidableEq T] in
theorem mem_tooMany {want i : Nat} :
    i ∈ (s.running.entries.filter fun r => want ≤ r.1).map Prod.snd ↔ ∃ k, want ≤ k ∧ s.running.get k = some i := by
  simp only [List.mem_map, List.mem_filter, decide_eq_true_eq, Prod.exists, OrdMap.get_eq_some]
  constructor
  · rintro ⟨k, j, ⟨hmem, hle⟩, rfl⟩
    exact ⟨k, hle, hmem⟩
  · rintro ⟨k, hle, hmem⟩
    exact ⟨k, i, ⟨hmem, hle⟩, rfl⟩

theorem live_shrink {want k i : Nat} : (s.shrink topic want).Live k i ↔
    s.Live k i ∧ ¬ ∃ k', want ≤ k' ∧ s.running.get k' = some i := by
  have hlive : (s.shrink topic want).Live k i ↔
      (s.stopWatches topic ((s.running.entries.filter fun r => want ≤ r.1).map Prod.snd)).Live k i := Iff.rfl
  rw [hlive, live_stopWatches, mem_tooMany]

theorem Inv.shrink (h : Inv topic s) (want : Nat) : Inv topic (s.shrink topic want) := by
  obtain ⟨hrunning, hyielded, hstopped, hcalls⟩ :=
    @rest_stopWatches _ _ topic s ((s.running.entries.filter fun r => want ≤ r.1).map Prod.snd)
  have hget : ∀ k i, (s.shrink topic want).running.get k = some i ↔ s.running.get k = some i ∧ k < want := by
    intro k i
    simp only [Decoys.shrink, hrunning]
    rw [OrdMap.get_filter, decide_eq_true_eq]
  refine ⟨fun k i => ?_, fun k i hk => h.bound k i ((hget k i).mp hk).1, ?_, fun hgone k => ?_, ?_⟩
  · rw [hget, live_shrink, ← h.table]
    refine and_congr_right fun hk => ?_
    constructor
    · rintro hlt ⟨k', hle, hk'⟩
      have heq := ((h.table k i).mp hk).index ((h.table k' i).mp hk')
      omega
    · exact fun hnot => Nat.lt_of_not_le fun hle => hnot ⟨k, hle, hk⟩
  · show ∀ c ∈ (s.stopWatches topic _).calls, _
    rw [hcalls]
    exact h.calls
  · have hnone := h.gone (hgone.imp (fun hy => hyielded ▸ hy) fun hs => hstopped ▸ hs) k
    rw [← Option.not_isSome_iff_eq_none, Option.isSome_iff_exists]
    rintro ⟨i, hi⟩
    rw [((hget k i).mp hi).1] at hnone
    cases hnone
  · exact h.held.stopWatches _

theorem Inv.startFrom (h : Inv topic s) {want : Nat} (hwant : want ≤ DECOY_MAX) {todo : List Nat}
    (htodo : ∀ i ∈ todo, i < want) : Inv topic (s.startFrom topic want todo) := by
  rcases startFrom_cases topic s want todo with heq | ⟨j, hj, heq⟩
  · rw [heq]
    exact h.shrink want
  · rw [heq]
    refine { h with calls := fun c hc => ?_ }
    rcases List.mem_append.mp hc with hc | hc
    · exact h.calls c hc
    · obtain rfl := List.mem_singleton.mp hc
      exact ⟨htodo j hj, hwant⟩

theorem Inv.add (h : Inv topic s) {i : Nat} (hi : i < DECOY_MAX) (hy : s.yielded = false) (hs : s.stopped = false)
    (hfree : s.running.has i = false) : Inv topic (s.add i) where
  table k j := by
    have hrunning : (s.add i).running = s.running.set i s.decoys.length := rfl
    have hnone : s.running.get i = none := Option.isNone_iff_eq_none.mp (by simpa [OrdMap.has] using hfree)
    rw [hrunning, OrdMap.get_set, live_add, ← h.table]
    by_cases hk : k = i
    · subst hk
      simp [hnone, eq_comm]
    · simp [hk]
  bound k j hget := by
    rcases OrdMap.get_set_some hget with ⟨rfl, -⟩ | ⟨-, hold⟩
    · exact hi
    · exact h.bound k j hold
  calls := h.calls
  gone hgone := by
    have hy' : (s.add i).yielded = false := hy
    have hs' : (s.add i).stopped = false := hs
    rw [hy', hs'] at hgone
    simp at hgone
  held t ht := by
    obtain ⟨j, w, ⟨hw, hrun⟩, hd⟩ := h.held t ht
    refine ⟨j, w, ⟨?_, hrun⟩, hd⟩
    have hlt := (List.getElem?_eq_some_iff.mp hw).1
    show (s.decoys ++ [_])[j]? = some w
    rwa [List.getElem?_append_left hlt]

omit [DecidableEq T] in
/-- A decoy's days change, and the node's topics with them. -/
theorem Inv.setDays (h : Inv topic s) {i : Nat} {w v : Decoy} (hw : s.decoys[i]? = some w) (hindex : v.index = w.index)
    (hstopped : v.stopped = w.stopped) (hdecoys : z.decoys = s.decoys.set i v) (hrunning : z.running = s.running)
    (hcalls : z.calls = s.calls) (hflags : z.yielded = s.yielded ∧ z.stopped = s.stopped) (hheld : z.Held topic) :
    Inv topic z where
  table k j := by
    obtain ⟨hi, -⟩ := List.getElem?_eq_some_iff.mp hw
    rw [hrunning, h.table]
    unfold Live Runs
    rw [hdecoys]
    by_cases hj : i = j
    · subst hj
      rw [List.getElem?_set_self hi, hw]
      simp [hindex, hstopped]
    · rw [List.getElem?_set_ne hj]
  bound k j hget := h.bound k j (hrunning ▸ hget)
  calls := hcalls ▸ h.calls
  gone hgone k := by
    rw [hflags.1, hflags.2] at hgone
    rw [hrunning]
    exact h.gone hgone k
  held := hheld

theorem Inv.derived (h : Inv topic s) (i : Nat) (d : Date) : Inv topic (s.derived topic i d) := by
  unfold Decoys.derived
  cases hw : s.decoys[i]? with
  | none => exact h
  | some w =>
      dsimp only
      split
      · exact h
      case isFalse hrun =>
        obtain ⟨hi, -⟩ := List.getElem?_eq_some_iff.mp hw
        refine h.setDays (v := { w with days := d :: w.days }) hw rfl rfl rfl rfl rfl ⟨rfl, rfl⟩ fun t ht => ?_
        rcases List.mem_insert_iff.mp ht with rfl | hin
        · exact ⟨i, _, ⟨List.getElem?_set_self hi, by simpa using hrun⟩, List.mem_map.mpr ⟨d, List.mem_cons_self, rfl⟩⟩
        · obtain ⟨j, v, ⟨hv, hrun'⟩, hd⟩ := h.held t hin
          by_cases hj : i = j
          · subst hj
            obtain rfl := Option.some.inj (hw.symm.trans hv)
            exact ⟨i, _, ⟨List.getElem?_set_self hi, hrun'⟩, List.mem_cons_of_mem _ hd⟩
          · exact ⟨j, v, ⟨(List.getElem?_set_ne hj).trans hv, hrun'⟩, hd⟩

theorem Inv.dropped (h : Inv topic s) (i : Nat) (d : Date) : Inv topic (s.dropped topic i d) := by
  unfold Decoys.dropped
  cases hw : s.decoys[i]? with
  | none => exact h
  | some w =>
      dsimp only
      split
      · obtain ⟨hi, -⟩ := List.getElem?_eq_some_iff.mp hw
        refine h.setDays (v := { w with days := w.days.filter (· ≠ d) }) hw rfl rfl rfl rfl rfl ⟨rfl, rfl⟩ fun t ht => ?_
        obtain ⟨hin, hne⟩ := List.mem_filter.mp ht
        obtain ⟨j, v, ⟨hv, hrun⟩, hd⟩ := h.held t hin
        by_cases hj : i = j
        · subst hj
          obtain rfl := Option.some.inj (hw.symm.trans hv)
          refine ⟨i, _, ⟨List.getElem?_set_self hi, hrun⟩, ?_⟩
          obtain ⟨e, he, rfl⟩ := List.mem_map.mp hd
          refine List.mem_map.mpr ⟨e, List.mem_filter.mpr ⟨he, ?_⟩, rfl⟩
          rw [decide_eq_true_eq] at hne ⊢
          rintro rfl
          exact hne rfl
        · exact ⟨j, v, ⟨(List.getElem?_set_ne hj).trans hv, hrun⟩, hd⟩
      · exact h

theorem decoyCount_le (n : Int) : (decoyCount n).toNat ≤ DECOY_MAX := by
  unfold decoyCount
  omega

theorem Inv.act (h : Inv topic s) (e : Event) (he : s.Fresh e) : Inv topic (s.act topic e) := by
  cases e with
  | resize n =>
      simp only [Decoys.act, Decoys.resize]
      split
      · exact h
      · exact h.startFrom (decoyCount_le n) fun i hi => List.mem_range.mp hi
  | resume k ok =>
      simp only [Decoys.act, Decoys.resume]
      cases hcall : s.calls[k]? with
      | none => exact h
      | some c =>
          obtain ⟨hindex, hwant⟩ := h.calls c (List.mem_of_getElem? hcall)
          have herased : Inv topic { s with calls := s.calls.eraseIdx k } :=
            ⟨h.table, h.bound, fun c hc => h.calls c (List.mem_of_mem_eraseIdx hc), h.gone, h.held⟩
          cases ok with
          | false => exact herased
          | true =>
              obtain ⟨hy, hs, hfree⟩ := he c hcall
              exact (herased.add (Nat.lt_of_lt_of_le hindex hwant) hy hs hfree).startFrom hwant fun i hi => by
                rw [List.mem_range'_1] at hi
                omega
  | yieldAll =>
      simp only [Decoys.act, Decoys.yieldAll]
      split
      · exact h
      · exact h.clear rfl rfl rfl (rest_stopWatches _).2.2.2
  | stop => exact h.clear rfl rfl rfl (rest_stopWatches _).2.2.2
  | derived i d => exact h.derived i d
  | dropped i d => exact h.dropped i d

/-! ## Decoys that come too late -/

/-- What a decoy that was added leaves to `shrink`: neither it nor one of its index. -/
theorem live_startFrom (h : Inv topic s) {want i k j : Nat} (hi : i < want) (hlive : (s.add i).Live k j) (hk : k = i)
    (todo : List Nat) : ((s.add i).startFrom topic want todo).Live k j := by
  rcases startFrom_cases topic (s.add i) want todo with heq | ⟨_, _, heq⟩
  · rw [heq, live_shrink]
    refine ⟨hlive, ?_⟩
    rintro ⟨k', hle, hget⟩
    rcases OrdMap.get_set_some hget with ⟨rfl, -⟩ | ⟨hne, hold⟩
    · omega
    · have hlive' := (h.table k' j).mp hold
      rcases live_add.mp hlive with hlive | ⟨-, rfl⟩
      · exact hne ((hlive'.index hlive).trans hk)
      · exact absurd hlive'.lt (Nat.lt_irrefl _)
  · rw [heq]
    exact hlive

theorem flags_startFrom (topic : Nat → Date → T) (s : Decoys T) (want : Nat) (todo : List Nat) :
    (s.startFrom topic want todo).yielded = s.yielded ∧ (s.startFrom topic want todo).stopped = s.stopped := by
  rcases startFrom_cases topic s want todo with heq | ⟨_, _, heq⟩
  · rw [heq]
    exact ⟨(rest_stopWatches _).2.1, (rest_stopWatches _).2.2.1⟩
  · rw [heq]
    exact ⟨rfl, rfl⟩

theorem Inv.fresh (h : Inv topic s) (e : Event) (hyields : (s.act topic e).Yields) : s.Fresh e := by
  cases e with
  | resume k ok =>
      cases ok with
      | false => trivial
      | true =>
          intro c hcall
          have hact : s.act topic (.resume k true) =
              (Decoys.add { s with calls := s.calls.eraseIdx k } c.index).startFrom topic c.want
                (List.range' (c.index + 1) (c.want - (c.index + 1))) := by
            simp only [Decoys.act, Decoys.resume, hcall, if_true]
          have herased : Inv topic { s with calls := s.calls.eraseIdx k } :=
            ⟨h.table, h.bound, fun c hc => h.calls c (List.mem_of_mem_eraseIdx hc), h.gone, h.held⟩
          have hindex := (h.calls c (List.mem_of_getElem? hcall)).1
          have hstay : ∀ j, (Decoys.add { s with calls := s.calls.eraseIdx k } c.index).Live c.index j →
              (s.act topic (.resume k true)).Live c.index j := by
            intro j hj
            rw [hact]
            exact live_startFrom herased hindex hj rfl _
          have hnew : (s.act topic (.resume k true)).Live c.index s.decoys.length :=
            hstay _ (live_add.mpr (.inr ⟨rfl, rfl⟩))
          have hflags : (s.act topic (.resume k true)).yielded = s.yielded ∧
              (s.act topic (.resume k true)).stopped = s.stopped := by
            rw [hact]
            exact flags_startFrom ..
          obtain ⟨w, hw, hwk⟩ := hnew
          refine ⟨?_, ?_, ?_⟩
          · rw [← Bool.not_eq_true]
            exact fun hy => (hyields.gone (.inl (hflags.1.trans hy))).1 _ w hw
          · rw [← Bool.not_eq_true]
            exact fun hs => (hyields.gone (.inr (hflags.2.trans hs))).1 _ w hw
          · cases hget : s.running.get c.index with
            | none => exact OrdMap.has_of_get_none hget
            | some j =>
                have hold := (h.table c.index j).mp hget
                have hlt := hold.lt
                obtain ⟨v, hv, hvk⟩ := hstay j (live_add.mpr (.inl hold))
                have heq := hyields.once _ _ v w hv hw (hvk.trans hwk.symm)
                omega
  | _ => trivial

/-- Along a run the decoys are what is asked of them in every state exactly when every decoy comes where nobody has yielded
or stopped and its index does not run. -/
theorem decoys_yield (topic : Nat → Date → T) (es : List Event) :
    (∀ ds, ds <+: es → (ds.foldl (act topic) start).Yields) ↔ Admits (act topic) Fresh start es :=
  Admits.iff_good (I := Inv topic) (fun _ h => h.yields) (fun _ e h he => h.act e he) (fun _ e h hy => h.fresh e hy)
    .start es

/-! ## Two runs -/

def sampleTopic (i : Nat) (d : Date) : Nat × Date := (i, d)

/-- A decoy starts, and yields. -/
theorem decoys_yield_sample : ∀ ds, ds <+: [.resize 1, .resume 0 true, .derived 0 0, .yieldAll] →
    (ds.foldl (act sampleTopic) start).Yields := by
  refine (decoys_yield sampleTopic _).mpr ⟨trivial, ?_, trivial, trivial, trivial⟩
  intro c hcall
  have hfirst : some (⟨1, 0⟩ : Resize) = some c := hcall
  cases hfirst
  exact ⟨rfl, rfl, rfl⟩

def yieldedMeanwhile : List Event := [.resize 1, .yieldAll, .resume 0 true, .derived 0 0]

def resizedMeanwhile : List Event := [.resize 1, .resize 1, .resume 0 true, .resume 0 true]

/-- After the yield, with no call under way, a decoy runs and has its topic on the node; an index runs twice. -/
theorem decoys_stay : (∃ s : Decoys (Nat × Date), s = yieldedMeanwhile.foldl (act sampleTopic) start ∧ s.yielded = true ∧
      s.calls = [] ∧ s.Runs 0 ⟨0, [0], false⟩ ∧ s.subscribed = [(0, 0)]) ∧
    ∃ s : Decoys (Nat × Date), s = resizedMeanwhile.foldl (act sampleTopic) start ∧ s.Runs 0 ⟨0, [], false⟩ ∧
      s.Runs 1 ⟨0, [], false⟩ := by
  refine ⟨⟨_, rfl, ?_, ?_, ⟨?_, rfl⟩, ?_⟩, _, rfl, ⟨?_, rfl⟩, ?_, rfl⟩
  all_goals decide

end EncedoChat.Presence.Decoys
