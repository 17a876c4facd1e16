import EncedoChat.Group.Lane
import EncedoChat.Group.Send

/-!
# A frame is handed out once

Three routes lead from a frame to the application: the receiver of the session, a key it set aside, and the
throwaway receiver of an older copy. What follows keeps them off one another's counters.
-/

namespace EncedoChat.Group

open SenderReceiver (Ordered Fits Ahead)

variable {S : Suite} {I : Identities} {o : ReceiverOpts}

/-- The frames a task has yet to open. -/
def Task.waiting (T : Task S I) : List Bytes :=
  (match T.phase with
    | .checking frame => [frame]
    | .opening .. => []) ++
  match T.caller with
  | .app => []
  | .release _ todo _ => todo.map Held.frame

def Task.isRelease (T : Task S I) : Bool :=
  match T.caller with
  | .app => false
  | .release .. => true

/-- The receiver and the counter of an opening under way. -/
def Task.opens (T : Task S I) : Option (Nat × Nat) :=
  match T.phase with
  | .opening i _ a => some (i, a.ctr)
  | .checking _ => none

namespace Lane

/-- The counter of a frame of the member that proves our MAC. -/
def counter (l : Lane S I) (frame : Bytes) : Option Nat :=
  (l.session.accept frame).bind fun a => if a.sender = l.member then some a.ctr else none

/-- The receiver on which the next step of the task begins an opening. -/
def begins (o : ReceiverOpts) (l : Lane S I) (T : Task S I) (t : Time) : Option Nat :=
  match T.phase with
  | .opening .. => none
  | .checking frame =>
    (l.counter frame).bind fun k => (T.use.or l.cur).bind fun i => (l.heap[i]?).bind fun r =>
      (((r.prune o t).start o k).toOption).map fun _ => i

/-- A copy at `ctr` reaches no held frame that was handed out, is being opened, or that `r` can still open. -/
def HeldClear (l : Lane S I) (r : SenderReceiver S) (ctr : Nat) (t : Time) : Prop :=
  ∀ x ∈ l.heldSince t, ∀ k ∈ l.counter x.frame, ctr ≤ k →
    k ∉ l.delivered.map Delivery.ctr ∧ (∀ e ∈ l.tasks.entries, ∀ q ∈ e.2.opens, q.2 ≠ k) ∧ ¬r.Ahead k

/-- The session's receiver is opening no frame that a copy at `ctr` could open. -/
def OpensBelow (l : Lane S I) (ctr : Nat) : Prop :=
  ∀ e ∈ l.tasks.entries, ∀ q ∈ e.2.opens, l.cur = some q.1 → q.2 < ctr

/-- The step keeps openings apart: none begins on a receiver that another is under way on, an older copy is set
aside only if the held frames are clear of it, and a newer one put in place only if the openings are below it. -/
def Orderly (o : ReceiverOpts) (l : Lane S I) : LaneAct S → Prop
  | .receive _ _ => True
  | .resume id _ t => ∀ T ∈ l.tasks.get id, ∀ i ∈ l.begins o T t, ∀ e ∈ l.tasks.entries, ∀ q ∈ e.2.opens, q.1 ≠ i
  | .setSenderKey _ _ ctr t => ∀ r ∈ l.live, if ctr < r.n then l.HeldClear r ctr t else l.OpensBelow ctr

instance (l : Lane S I) (r : SenderReceiver S) (ctr : Nat) (t : Time) : Decidable (l.HeldClear r ctr t) :=
  inferInstanceAs (Decidable (∀ x ∈ _, ∀ k ∈ _, _ → _ ∧ _ ∧ _))

instance (l : Lane S I) (ctr : Nat) : Decidable (l.OpensBelow ctr) :=
  inferInstanceAs (Decidable (∀ e ∈ _, ∀ q ∈ _, _ → _))

instance (l : Lane S I) (a : LaneAct S) : Decidable (l.Orderly o a) :=
  match a with
  | .receive _ _ => isTrue trivial
  | .resume _ _ _ => inferInstanceAs (Decidable (∀ T ∈ _, ∀ i ∈ _, ∀ e ∈ _, ∀ q ∈ _, _))
  | .setSenderKey _ _ _ _ => inferInstanceAs (Decidable (∀ r ∈ _, ite _ _ _))

/-! ## The invariant -/

def Opening (l : Lane S I) (id i : Nat) (c : Candidate S.Key) (k : Nat) : Prop :=
  ∃ T a, l.tasks.get id = some T ∧ T.phase = .opening i c a ∧ a.ctr = k

/-- A release has yet to try this frame with its throwaway receiver `u`. -/
def Waiting (l : Lane S I) (id u : Nat) (frame : Bytes) : Prop :=
  ∃ T, l.tasks.get id = some T ∧ T.use = some u ∧ frame ∈ T.waiting

def Done (l : Lane S I) (k : Nat) : Prop := k ∈ l.delivered.map Delivery.ctr

/-- No counter is within reach of two receivers that could both open it, and none that was handed out is
within reach of any. -/
structure Apart (l : Lane S I) : Prop where
  ordered : ∀ (i : Nat) (r : SenderReceiver S), l.heap[i]? = some r → r.Ordered
  valid : ∀ i, l.cur = some i → ∃ r, l.heap[i]? = some r
  opening : ∀ id i c k, l.Opening id i c k → ∃ r, l.heap[i]? = some r ∧ r.Fits k c
  apart : ∀ id id' i i' c c' k k', l.Opening id i c k → l.Opening id' i' c' k' → id ≠ id' → i ≠ i' ∧ k ≠ k'
  unspent : ∀ id i c k, l.Opening id i c k → ¬l.Done k
  past : ∀ r k, l.live = some r → l.Done k → ¬r.Ahead k
  beside : ∀ r id i c k, l.live = some r → l.cur ≠ some i → l.Opening id i c k → ¬r.Ahead k
  own : ∀ (id u : Nat) frame k (r : SenderReceiver S), l.Waiting id u frame → l.counter frame = some k →
    l.heap[u]? = some r → r.Ahead k → ¬l.Done k ∧ (∀ r', l.live = some r' → ¬r'.Ahead k) ∧
      ∀ id' i c k', id' ≠ id → l.Opening id' i c k' → k' ≠ k
  nodup : (l.delivered.map Delivery.ctr).Nodup

/-- One release at a time, and only beside a receiver; nothing is held meanwhile. -/
structure Queued (l : Lane S I) : Prop where
  release : ∀ id T, l.tasks.get id = some T → T.isRelease = true → l.held = none ∧ l.cur ≠ none ∧
    ∀ id' T', l.tasks.get id' = some T' → T'.isRelease = true → id' = id
  use : ∀ id T u, l.tasks.get id = some T → T.use = some u → T.isRelease = true ∧
    (∃ r, l.heap[u]? = some r) ∧ ∀ i c a, T.phase = .opening i c a → i = u
  idle : l.cur = none → l.heap = [] ∧ l.delivered = []

variable {l l' : Lane S I} {id i k : Nat} {T : Task S I} {c : Candidate S.Key} {r : SenderReceiver S} {t : Time}

theorem Opening.entry (h : l.Opening id i c k) : ∃ e ∈ l.tasks.entries, e.2.opens = some (i, k) := by
  obtain ⟨T, a, hT, hphase, rfl⟩ := h
  refine ⟨(id, T), OrdMap.get_eq_some.mp hT, ?_⟩
  simp only [Task.opens, hphase]

theorem live_eq_some : l.live = some r ↔ ∃ i, l.cur = some i ∧ l.heap[i]? = some r := by
  rw [live, Option.bind_eq_some_iff]

theorem getElem?_set_some {α : Type} {xs : List α} {i j : Nat} {x y : α} (h : (xs.set i x)[j]? = some y) :
    j = i ∧ y = x ∨ j ≠ i ∧ xs[j]? = some y := by
  rw [List.getElem?_set] at h
  split at h
  · rename_i hij
    split at h
    · exact Or.inl ⟨hij.symm, (Option.some.inj h).symm⟩
    · cases h
  · rename_i hij
    exact Or.inr ⟨Ne.symm hij, h⟩

/-! ## Tasks that end or go on -/

/-- `l'` has the receivers and deliveries of `l`. -/
structure Same (l l' : Lane S I) : Prop where
  session : l'.session = l.session
  member : l'.member = l.member
  heap : l'.heap = l.heap
  cur : l'.cur = l.cur
  delivered : l'.delivered = l.delivered

/-- Task `id` of `l` has ended in `l'`, or gone on to its next frame, and no other task was touched. -/
structure Ended (l l' : Lane S I) (id : Nat) : Prop where
  opening : ∀ id' i c k, l'.Opening id' i c k → id' ≠ id ∧ l.Opening id' i c k
  waiting : ∀ id' u frame, l'.Waiting id' u frame → l.Waiting id' u frame

theorem Same.live (h : Same l l') : l'.live = l.live := by
  rw [Lane.live, Lane.live, h.heap, h.cur]

theorem Same.counter (h : Same l l') (frame : Bytes) : l'.counter frame = l.counter frame := by
  rw [Lane.counter, Lane.counter, h.session, h.member]

/-- Fewer openings and fewer frames to try, with the receivers as they were. -/
theorem Apart.mono (h : Apart l) (hs : Same l l') (ho : ∀ id i c k, l'.Opening id i c k → l.Opening id i c k)
    (hw : ∀ id u frame, l'.Waiting id u frame → l.Waiting id u frame) : Apart l' where
  ordered := hs.heap ▸ h.ordered
  valid := by
    rw [hs.heap, hs.cur]
    exact h.valid
  opening := by
    rw [hs.heap]
    intro id i c k hop
    exact h.opening id i c k (ho _ _ _ _ hop)
  apart id₁ id₂ i₁ i₂ c₁ c₂ k₁ k₂ h₁ h₂ :=
    h.apart id₁ id₂ i₁ i₂ c₁ c₂ k₁ k₂ (ho _ _ _ _ h₁) (ho _ _ _ _ h₂)
  unspent := by
    rw [show l'.Done = l.Done by unfold Done; rw [hs.delivered]]
    intro id i c k hop
    exact h.unspent id i c k (ho _ _ _ _ hop)
  past := by
    rw [show l'.Done = l.Done by unfold Done; rw [hs.delivered], hs.live]
    exact h.past
  beside := by
    rw [hs.live, hs.cur]
    intro r id i c k hr hi hop
    exact h.beside r id i c k hr hi (ho _ _ _ _ hop)
  own := by
    rw [show l'.Done = l.Done by unfold Done; rw [hs.delivered], hs.live, hs.heap]
    intro id u frame k r hwait hk hr ha
    rw [hs.counter] at hk
    obtain ⟨hd, hl, hother⟩ := h.own id u frame k r (hw _ _ _ hwait) hk hr ha
    refine ⟨hd, hl, ?_⟩
    intro id' i c k' hne hop
    exact hother id' i c k' hne (ho _ _ _ _ hop)
  nodup := hs.delivered ▸ h.nodup

theorem Apart.ended (h : Apart l) (hs : Same l l') (he : Ended l l' id) : Apart l' :=
  h.mono hs (fun _ _ _ _ ho => (he.opening _ _ _ _ ho).2) he.waiting

/-- What is held, and how often the key was asked for, is not looked at. -/
theorem Apart.same (h : Apart l) (hs : Same l l') (htasks : l'.tasks = l.tasks) : Apart l' := by
  refine h.mono hs ?_ ?_
  · intro id i c k ho
    rw [Opening, htasks] at ho
    exact ho
  · intro id u frame hw
    rw [Waiting, htasks] at hw
    exact hw

/-! ## What a step does to the receivers -/

/-- Letting old keys go takes counters away only. -/
theorem Apart.prune (h : Apart l) (hr : l.heap[i]? = some r) :
    Apart { l with heap := l.heap.set i (r.prune o t) } := by
  have hold : ∀ (j : Nat) (r' : SenderReceiver S), (l.heap.set i (r.prune o t))[j]? = some r' →
      ∃ r₀, l.heap[j]? = some r₀ ∧ (r₀.Ordered → r'.Ordered) ∧ ∀ k, r'.Ahead k → r₀.Ahead k := by
    intro j r' hj
    obtain ⟨rfl, rfl⟩ | ⟨-, hj⟩ := getElem?_set_some hj
    · exact ⟨r, hr, fun ho => ho.prune t, fun k ha => ha.of_prune⟩
    · exact ⟨r', hj, id, fun k ha => ha⟩
  have hnew : ∀ (j : Nat) (r₀ : SenderReceiver S), l.heap[j]? = some r₀ →
      ∃ r', (l.heap.set i (r.prune o t))[j]? = some r' ∧ ∀ k c, r₀.Fits k c → r'.Fits k c := by
    intro j r₀ hj
    by_cases hij : i = j
    · subst hij
      rw [hr] at hj
      cases hj
      exact ⟨r.prune o t, List.getElem?_set_self (List.getElem?_eq_some_iff.mp hr).1, fun k c hf => hf.prune t⟩
    · exact ⟨r₀, by rw [List.getElem?_set_ne hij, hj], fun k c hf => hf⟩
  have hlive : ∀ r', live { l with heap := l.heap.set i (r.prune o t) } = some r' →
      ∃ r₀, l.live = some r₀ ∧ ∀ k, r'.Ahead k → r₀.Ahead k := by
    intro r' hl
    obtain ⟨j, hj, hr'⟩ := live_eq_some.mp hl
    obtain ⟨r₀, h₀, -, ha⟩ := hold j r' hr'
    exact ⟨r₀, live_eq_some.mpr ⟨j, hj, h₀⟩, ha⟩
  exact {
    ordered := by
      intro j r' hj
      obtain ⟨r₀, h₀, ho, -⟩ := hold j r' hj
      exact ho (h.ordered j r₀ h₀)
    valid := by
      intro j hj
      obtain ⟨r₀, h₀⟩ := h.valid j hj
      obtain ⟨r', hr', -⟩ := hnew j r₀ h₀
      exact ⟨r', hr'⟩
    opening := by
      intro id j c k ho
      obtain ⟨r₀, h₀, hf⟩ := h.opening id j c k ho
      obtain ⟨r', hr', hfit⟩ := hnew j r₀ h₀
      exact ⟨r', hr', hfit k c hf⟩
    apart := h.apart
    unspent := h.unspent
    past := by
      intro r' k hl hd ha
      obtain ⟨r₀, h₀, hle⟩ := hlive r' hl
      exact h.past r₀ k h₀ hd (hle k ha)
    beside := by
      intro r' id j c k hl hj ho ha
      obtain ⟨r₀, h₀, hle⟩ := hlive r' hl
      exact h.beside r₀ id j c k h₀ hj ho (hle k ha)
    own := by
      intro id u frame k r' hw hk hu ha
      obtain ⟨r₀, h₀, -, hle⟩ := hold u r' hu
      obtain ⟨hd, hl, ho⟩ := h.own id u frame k r₀ hw hk h₀ (hle k ha)
      refine ⟨hd, ?_, ho⟩
      intro r'' hl'' ha''
      obtain ⟨r₁, h₁, hle₁⟩ := hlive r'' hl''
      exact hl r₁ h₁ (hle₁ k ha'')
    nodup := h.nodup }

/-- The opening of `k` on receiver `i` succeeds, and its task ends. -/
theorem Apart.commit (h : Apart l) (ho : l.Opening id i c k) (hr : l.heap[i]? = some r)
    (hown : ∀ u frame, l.Waiting id u frame → u = i) (hsession : l'.session = l.session)
    (hmember : l'.member = l.member) (hcur : l'.cur = l.cur) (hheap : l'.heap = l.heap.set i (r.commit c k t))
    (hdel : l'.delivered.map Delivery.ctr = k :: l.delivered.map Delivery.ctr) (he : Ended l l' id) : Apart l' := by
  have hord := h.ordered i r hr
  have hfit : r.Fits k c := by
    obtain ⟨r', hr', hf⟩ := h.opening id i c k ho
    rw [hr] at hr'
    cases hr'
    exact hf
  have hdone : ∀ j, l'.Done j ↔ j = k ∨ l.Done j := by
    intro j
    rw [Done, hdel, List.mem_cons]
    exact Iff.rfl
  have hold : ∀ (j : Nat) (r' : SenderReceiver S), l'.heap[j]? = some r' → j = i ∧ r' = r.commit c k t ∨
      j ≠ i ∧ l.heap[j]? = some r' := by
    intro j r' hj
    rw [hheap] at hj
    exact getElem?_set_some hj
  -- the session's receiver can open no more than before, and not `k`
  have hlive : ∀ r', l'.live = some r' → ∃ r₀, l.live = some r₀ ∧ ∀ j, r'.Ahead j → r₀.Ahead j ∧ j ≠ k := by
    intro r' hl
    obtain ⟨x, hx, hr'⟩ := live_eq_some.mp hl
    rw [hcur] at hx
    obtain ⟨rfl, rfl⟩ | ⟨hne, h₀⟩ := hold x r' hr'
    · exact ⟨r, live_eq_some.mpr ⟨x, hx, hr⟩, fun j ha => SenderReceiver.ahead_commit hord hfit ha⟩
    · have hl₀ := live_eq_some.mpr ⟨x, hx, h₀⟩
      refine ⟨r', hl₀, ?_⟩
      intro j ha
      refine ⟨ha, ?_⟩
      rintro rfl
      refine h.beside r' id i c j hl₀ ?_ ho ha
      rw [hx]
      intro hxi
      exact hne (Option.some.inj hxi)
  exact {
    ordered := by
      intro j r' hj
      obtain ⟨-, rfl⟩ | ⟨-, h₀⟩ := hold j r' hj
      · exact hord.commit hfit t
      · exact h.ordered j r' h₀
    valid := by
      intro j hj
      rw [hcur] at hj
      obtain ⟨r₀, h₀⟩ := h.valid j hj
      have hlt : j < l'.heap.length := by
        rw [hheap, List.length_set]
        exact (List.getElem?_eq_some_iff.mp h₀).1
      exact ⟨_, List.getElem?_eq_getElem hlt⟩
    opening := by
      intro id' i' c' k' ho'
      obtain ⟨hne, ho'⟩ := he.opening _ _ _ _ ho'
      obtain ⟨r', hr', hf⟩ := h.opening id' i' c' k' ho'
      have hi := (h.apart _ _ _ _ _ _ _ _ ho' ho hne).1
      exact ⟨r', by rw [hheap, List.getElem?_set_ne (Ne.symm hi), hr'], hf⟩
    apart := fun id₁ id₂ i₁ i₂ c₁ c₂ k₁ k₂ h₁ h₂ =>
      h.apart id₁ id₂ i₁ i₂ c₁ c₂ k₁ k₂ (he.opening _ _ _ _ h₁).2 (he.opening _ _ _ _ h₂).2
    unspent := by
      intro id' i' c' k' ho' hd
      obtain ⟨hne, ho'⟩ := he.opening _ _ _ _ ho'
      obtain rfl | hd := (hdone k').mp hd
      · exact (h.apart _ _ _ _ _ _ _ _ ho' ho hne).2 rfl
      · exact h.unspent id' i' c' k' ho' hd
    past := by
      intro r' j hl hd ha
      obtain ⟨r₀, h₀, hle⟩ := hlive r' hl
      obtain rfl | hd := (hdone j).mp hd
      · exact (hle j ha).2 rfl
      · exact h.past r₀ j h₀ hd (hle j ha).1
    beside := by
      intro r' id' i' c' k' hl hi ho' ha
      obtain ⟨r₀, h₀, hle⟩ := hlive r' hl
      rw [hcur] at hi
      exact h.beside r₀ id' i' c' k' h₀ hi (he.opening _ _ _ _ ho').2 (hle k' ha).1
    own := by
      intro id' u frame j r' hw hk hu ha
      have hw := he.waiting _ _ _ hw
      rw [counter, hsession, hmember] at hk
      have hback : ∃ r₀, l.heap[u]? = some r₀ ∧ r₀.Ahead j ∧ j ≠ k := by
        obtain ⟨rfl, rfl⟩ | ⟨hne, h₀⟩ := hold u r' hu
        · exact ⟨r, hr, SenderReceiver.ahead_commit hord hfit ha⟩
        · refine ⟨r', h₀, ha, ?_⟩
          have hid : id ≠ id' := by
            rintro rfl
            exact hne (hown u frame hw)
          exact fun hjk => (h.own id' u frame j r' hw hk h₀ ha).2.2 id i c k hid ho hjk.symm
      obtain ⟨r₀, h₀, ha₀, hjk⟩ := hback
      obtain ⟨hd, hl, hop⟩ := h.own id' u frame j r₀ hw hk h₀ ha₀
      refine ⟨?_, ?_, ?_⟩
      · rw [hdone]
        exact fun hd' => hd'.elim hjk hd
      · intro r'' hl'' ha''
        obtain ⟨r₁, h₁, hle⟩ := hlive r'' hl''
        exact hl r₁ h₁ (hle j ha'').1
      · intro id'' i'' c'' k'' hne ho''
        exact hop id'' i'' c'' k'' hne (he.opening _ _ _ _ ho'').2
    nodup := by
      rw [hdel, List.nodup_cons]
      exact ⟨h.unspent id i c k ho, h.nodup⟩ }

/-- Task `id` begins to open `k`, on a receiver that no other is opening on. -/
theorem Apart.begin {frame : Bytes} {a : Session.Accepted I} (h : Apart l) (hT : l.tasks.get id = some T)
    (hphase : T.phase = .checking frame) (hk : l.counter frame = some a.ctr) (hi : T.use.or l.cur = some i)
    (hr : l.heap[i]? = some r) (hfit : r.Fits a.ctr c) (ha : r.Ahead a.ctr)
    (hno : ∀ id' c' k', ¬l.Opening id' i c' k')
    (hone : ∀ v id' u f, T.use = some v → l.Waiting id' u f → id' = id) :
    Apart { l with tasks := l.tasks.set id { T with phase := .opening i c a } } := by
  set l' : Lane S I := { l with tasks := l.tasks.set id { T with phase := .opening i c a } } with hl'
  have hopen : ∀ id' i' c' k', l'.Opening id' i' c' k' → id' = id ∧ i' = i ∧ c' = c ∧ k' = a.ctr ∨
      id' ≠ id ∧ l.Opening id' i' c' k' := by
    rintro id' i' c' k' ⟨T', a', hg, hp, rfl⟩
    obtain ⟨rfl, rfl⟩ | ⟨hne, hg⟩ := OrdMap.get_set_some hg
    · cases hp
      exact Or.inl ⟨rfl, rfl, rfl, rfl⟩
    · exact Or.inr ⟨hne, T', a', hg, hp, rfl⟩
  have hwait : ∀ id' u f, l'.Waiting id' u f → l.Waiting id' u f := by
    rintro id' u f ⟨T', hg, hu, hf⟩
    obtain ⟨rfl, rfl⟩ | ⟨-, hg⟩ := OrdMap.get_set_some hg
    · exact ⟨T, hT, hu, List.mem_append_right _ hf⟩
    · exact ⟨T', hg, hu, hf⟩
  -- the counter is free: handed out it would not be ahead, nor would another be opening it
  have hfree : ¬l.Done a.ctr ∧ (∀ r', l.cur ≠ some i → l.live = some r' → ¬r'.Ahead a.ctr) ∧
      ∀ id' i' c' k', id' ≠ id → l.Opening id' i' c' k' → k' ≠ a.ctr := by
    cases huse : T.use with
    | some u =>
        rw [huse, Option.some_or, Option.some.injEq] at hi
        subst hi
        have hw : l.Waiting id u frame := ⟨T, hT, huse, by simp [Task.waiting, hphase]⟩
        obtain ⟨hd, hl, ho⟩ := h.own id u frame a.ctr r hw hk hr ha
        exact ⟨hd, fun r' _ => hl r', ho⟩
    | none =>
        rw [huse, Option.none_or] at hi
        have hlive := live_eq_some.mpr ⟨i, hi, hr⟩
        refine ⟨fun hd => h.past r a.ctr hlive hd ha, fun r' hne => absurd hi hne, ?_⟩
        rintro id' i' c' k' - ho rfl
        by_cases hii : l.cur = some i'
        · rw [hi] at hii
          cases hii
          exact hno id' c' _ ho
        · exact h.beside r id' i' c' _ hlive hii ho ha
  exact {
    ordered := h.ordered
    valid := h.valid
    opening := by
      intro id' i' c' k' ho
      obtain ⟨rfl, rfl, rfl, rfl⟩ | ⟨-, ho⟩ := hopen _ _ _ _ ho
      · exact ⟨r, hr, hfit⟩
      · exact h.opening _ _ _ _ ho
    apart := by
      intro id₁ id₂ i₁ i₂ c₁ c₂ k₁ k₂ h₁ h₂ hne
      obtain ⟨rfl, rfl, rfl, rfl⟩ | ⟨hn₁, ho₁⟩ := hopen _ _ _ _ h₁
      · obtain ⟨rfl, -⟩ | ⟨hn₂, ho₂⟩ := hopen _ _ _ _ h₂
        · exact absurd rfl hne
        · refine ⟨?_, fun hk => hfree.2.2 id₂ i₂ c₂ k₂ hn₂ ho₂ hk.symm⟩
          rintro rfl
          exact hno _ _ _ ho₂
      · obtain ⟨rfl, rfl, rfl, rfl⟩ | ⟨hn₂, ho₂⟩ := hopen _ _ _ _ h₂
        · refine ⟨?_, hfree.2.2 id₁ i₁ c₁ k₁ hn₁ ho₁⟩
          rintro rfl
          exact hno _ _ _ ho₁
        · exact h.apart _ _ _ _ _ _ _ _ ho₁ ho₂ hne
    unspent := by
      intro id' i' c' k' ho
      obtain ⟨rfl, rfl, rfl, rfl⟩ | ⟨-, ho⟩ := hopen _ _ _ _ ho
      · exact hfree.1
      · exact h.unspent _ _ _ _ ho
    past := h.past
    beside := by
      intro r' id' i' c' k' hl hne ho
      obtain ⟨rfl, rfl, rfl, rfl⟩ | ⟨-, ho⟩ := hopen _ _ _ _ ho
      · exact hfree.2.1 r' hne hl
      · exact h.beside r' id' i' c' k' hl hne ho
    own := by
      intro id' u f k r' hw' hk' hu ha'
      have hw := hwait _ _ _ hw'
      obtain ⟨hd, hl, ho⟩ := h.own id' u f k r' hw hk' hu ha'
      refine ⟨hd, hl, ?_⟩
      intro id'' i'' c'' k'' hne ho''
      obtain ⟨rfl, rfl, rfl, rfl⟩ | ⟨-, ho''⟩ := hopen _ _ _ _ ho''
      · rintro rfl
        cases huse : T.use with
        | none =>
            rw [huse, Option.none_or] at hi
            exact hl r (live_eq_some.mpr ⟨i'', hi, hr⟩) ha
        | some v => exact hne (hone v id' u f huse (hwait _ _ _ hw')).symm
      · exact ho id'' i'' c'' k'' hne ho''
    nodup := h.nodup }

/-- A receiver that nobody uses yet. -/
theorem Apart.append {new : SenderReceiver S} (h : Apart l) (hnew : new.Ordered)
    (huse : ∀ id u f, l.Waiting id u f → ∃ r, l.heap[u]? = some r) : Apart { l with heap := l.heap ++ [new] } := by
  have hold : ∀ (i : Nat) (r : SenderReceiver S), l.heap[i]? = some r → (l.heap ++ [new])[i]? = some r := by
    intro i r hr
    rw [List.getElem?_append_left (List.getElem?_eq_some_iff.mp hr).1, hr]
  have hlive : ∀ r, live { l with heap := l.heap ++ [new] } = some r → l.live = some r := by
    intro r hr
    obtain ⟨i, hi, hr⟩ := live_eq_some.mp hr
    obtain ⟨r', hr'⟩ := h.valid i hi
    have hsame := (hold i r' hr').symm.trans hr
    exact live_eq_some.mpr ⟨i, hi, hsame ▸ hr'⟩
  exact {
    ordered := by
      intro i r hr
      rcases Nat.lt_or_ge i l.heap.length with hlt | hge
      · have hsame := (hold i _ (List.getElem?_eq_getElem hlt)).symm.trans hr
        exact h.ordered i r (hsame ▸ List.getElem?_eq_getElem hlt)
      · have hr' : (l.heap ++ [new])[i]? = some r := hr
        rw [List.getElem?_append_right hge, List.getElem?_singleton] at hr'
        split at hr'
        · cases hr'
          exact hnew
        · cases hr'
    valid := by
      intro i hi
      obtain ⟨r, hr⟩ := h.valid i hi
      exact ⟨r, hold i r hr⟩
    opening := by
      intro id i c k ho
      obtain ⟨r, hr, hf⟩ := h.opening id i c k ho
      exact ⟨r, hold i r hr, hf⟩
    apart := h.apart
    unspent := h.unspent
    past := fun r k hr => h.past r k (hlive r hr)
    beside := fun r id i c k hr => h.beside r id i c k (hlive r hr)
    own := by
      intro id u f k r hw hk hu ha
      obtain ⟨r₀, h₀⟩ := huse id u f hw
      have hsame := (hold u r₀ h₀).symm.trans hu
      cases hsame
      obtain ⟨hd, hl, ho⟩ := h.own id u f k r hw hk h₀ ha
      exact ⟨hd, fun r' hr' => hl r' (hlive r' hr'), ho⟩
    nodup := h.nodup }

/-- A newer copy becomes the session's receiver. -/
theorem Apart.replace {key : S.Key} {ctr : Nat} (h : Apart l) (hi : l.heap[i]? = some (.make key ctr))
    (hfirst : l.cur = none → l.delivered = [] ∧ (∀ id i c k, ¬l.Opening id i c k) ∧ ∀ id u f, ¬l.Waiting id u f)
    (hn : ∀ r, l.live = some r → r.n ≤ ctr ∧ l.OpensBelow ctr) : Apart { l with cur := some i } := by
  have hlive : live { l with cur := some i } = some (.make key ctr) := live_eq_some.mpr ⟨i, rfl, hi⟩
  have hold : l.cur ≠ none → ∃ r, l.live = some r := by
    intro hc
    obtain ⟨j, hj⟩ := Option.ne_none_iff_exists'.mp hc
    obtain ⟨r, hr⟩ := h.valid j hj
    exact ⟨r, live_eq_some.mpr ⟨j, hj, hr⟩⟩
  -- what the old receiver could not open, the new one cannot
  have hbelow : ∀ r k, l.live = some r → ¬r.Ahead k → ¬(SenderReceiver.make key ctr).Ahead k := by
    intro r k hr ha ha'
    have hlt := Nat.lt_of_lt_of_le (SenderReceiver.lt_of_not_ahead ha) (hn r hr).1
    exact Nat.not_le_of_lt hlt (SenderReceiver.ahead_make.mp ha')
  exact {
    ordered := h.ordered
    valid := by
      rintro j ⟨⟩
      exact ⟨_, hi⟩
    opening := h.opening
    apart := h.apart
    unspent := h.unspent
    past := by
      intro r k hr hd
      rw [hlive] at hr
      cases hr
      by_cases hc : l.cur = none
      · rw [Done, (hfirst hc).1] at hd
        cases hd
      · obtain ⟨r, hr⟩ := hold hc
        exact hbelow r k hr (h.past r k hr hd)
    beside := by
      intro r id j c k hr _ ho
      rw [hlive] at hr
      cases hr
      by_cases hc : l.cur = none
      · exact absurd ho ((hfirst hc).2.1 id j c k)
      · obtain ⟨r, hr⟩ := hold hc
        by_cases hcj : l.cur = some j
        · obtain ⟨e, he, hq⟩ := Opening.entry ho
          have hlt := (hn r hr).2 e he (j, k) hq hcj
          rw [SenderReceiver.ahead_make]
          exact Nat.not_le_of_lt hlt
        · exact hbelow r k hr (h.beside r id j c k hr hcj ho)
    own := by
      intro id u f k r hw hk hu ha
      obtain ⟨hd, hl, ho⟩ := h.own id u f k r hw hk hu ha
      refine ⟨hd, ?_, ho⟩
      intro r' hr'
      rw [hlive] at hr'
      cases hr'
      by_cases hc : l.cur = none
      · exact absurd hw ((hfirst hc).2.2 id u f)
      · obtain ⟨r, hr⟩ := hold hc
        exact hbelow r k hr (hl r hr)
    nodup := h.nodup }

/-- An older copy tries what is held with a receiver of its own. -/
theorem Apart.aside {key : S.Key} {ctr u : Nat} {x : Held} {todo : List Held} {held : Option (List Held)} (h : Apart l)
    (hu : l.heap[u]? = some (.make key ctr)) (hr : l.live = some r) (hclear : l.HeldClear r ctr t)
    (hq : l.heldSince t = x :: todo) :
    Apart { l with held, tasks := l.tasks.set id ⟨.checking x.frame, some u, .release x todo []⟩ } := by
  set l' : Lane S I := { l with held, tasks := l.tasks.set id ⟨.checking x.frame, some u, .release x todo []⟩ } with hl'
  have hopen : ∀ id' i c k, l'.Opening id' i c k → l.Opening id' i c k := by
    rintro id' i c k ⟨T, a, hg, hp, rfl⟩
    obtain ⟨-, rfl⟩ | ⟨-, hg⟩ := OrdMap.get_set_some hg
    · cases hp
    · exact ⟨T, a, hg, hp, rfl⟩
  exact {
    ordered := h.ordered
    valid := h.valid
    opening := fun id' i c k ho => h.opening id' i c k (hopen _ _ _ _ ho)
    apart := fun id₁ id₂ i₁ i₂ c₁ c₂ k₁ k₂ h₁ h₂ =>
      h.apart id₁ id₂ i₁ i₂ c₁ c₂ k₁ k₂ (hopen _ _ _ _ h₁) (hopen _ _ _ _ h₂)
    unspent := fun id' i c k ho => h.unspent id' i c k (hopen _ _ _ _ ho)
    past := h.past
    beside := fun r id' i c k hr hi ho => h.beside r id' i c k hr hi (hopen _ _ _ _ ho)
    own := by
      rintro id' u' f k r' ⟨T, hg, hTu, hf⟩ hk hu' ha
      obtain ⟨rfl, rfl⟩ | ⟨hne, hg⟩ := OrdMap.get_set_some hg
      · cases hTu
        have hr' := hu.symm.trans hu'
        cases hr'
        have hmem : f ∈ (l.heldSince t).map Held.frame := by
          rw [hq]
          exact hf
        obtain ⟨y, hy, rfl⟩ := List.mem_map.mp hmem
        obtain ⟨hd, ho, hah⟩ := hclear y hy k hk (SenderReceiver.ahead_make.mp ha)
        refine ⟨hd, ?_, ?_⟩
        · intro r'' hl''
          have hlive := hr.symm.trans hl''
          cases hlive
          exact hah
        · intro id'' i c k' _ hop
          obtain ⟨e, hm, he⟩ := Opening.entry (hopen _ _ _ _ hop)
          exact ho e hm (i, k') he
      · obtain ⟨hd, hl, ho⟩ := h.own id' u' f k r' ⟨T, hg, hTu, hf⟩ hk hu' ha
        exact ⟨hd, hl, fun id'' i c k' hne hop => ho id'' i c k' hne (hopen _ _ _ _ hop)⟩
    nodup := h.nodup }

/-! ## What a step does to the tasks -/

theorem settle_same (l : Lane S I) (id : Nat) (T : Task S I) (b : Bool) : Same l (l.settle id T b) := by
  unfold settle
  cases T.caller with
  | app => exact ⟨rfl, rfl, rfl, rfl, rfl⟩
  | release x todo keep => cases todo <;> exact ⟨rfl, rfl, rfl, rfl, rfl⟩

/-- What task `id` is after a call of `receive` ends: gone, or a release that goes on. -/
theorem settle_tasks (hT : l.tasks.get id = some T) {b : Bool} {id' : Nat} {T' : Task S I}
    (hg : (l.settle id T b).tasks.get id' = some T') :
    id' ≠ id ∧ l.tasks.get id' = some T' ∨ id' = id ∧ T'.use = T.use ∧ T'.opens = none ∧
      T'.waiting ⊆ T.waiting ∧ T'.isRelease = true ∧ T.isRelease = true ∧ (l.settle id T b).held = l.held := by
  unfold settle at hg ⊢
  cases hc : T.caller with
  | app =>
      rw [hc] at hg
      exact Or.inl (OrdMap.get_delete_some hg)
  | release x todo keep =>
      rw [hc] at hg
      cases todo with
      | nil => exact Or.inl (OrdMap.get_delete_some hg)
      | cons y todo =>
          obtain ⟨rfl, rfl⟩ | ⟨hne, hg⟩ := OrdMap.get_set_some hg
          · refine Or.inr ⟨rfl, rfl, rfl, ?_, rfl, by rw [Task.isRelease, hc], rfl⟩
            intro f hf
            rw [Task.waiting, hc]
            exact List.mem_append_right _ hf
          · exact Or.inl ⟨hne, hg⟩

theorem settle_ended (hT : l.tasks.get id = some T) (b : Bool) : Ended l (l.settle id T b) id where
  opening := by
    rintro id' i c k ⟨T', a, hg, hp, rfl⟩
    obtain ⟨hne, hg⟩ | ⟨-, -, ho, -⟩ := settle_tasks hT hg
    · exact ⟨hne, T', a, hg, hp, rfl⟩
    · rw [Task.opens, hp] at ho
      cases ho
  waiting := by
    rintro id' u f ⟨T', hg, hu, hf⟩
    obtain ⟨-, hg⟩ | ⟨rfl, huse, -, hsub, -⟩ := settle_tasks hT hg
    · exact ⟨T', hg, hu, hf⟩
    · exact ⟨T, hT, huse ▸ hu, hsub hf⟩

theorem Queued.settle (h : Queued l) (hT : l.tasks.get id = some T) (b : Bool) : Queued (l.settle id T b) := by
  have hs := settle_same l id T b
  exact {
    release := by
      intro id' T' hg hr
      have huniq : ∀ id'' T'', (l.settle id T b).tasks.get id'' = some T'' → T''.isRelease = true → id'' = id' := by
        intro id'' T'' hg'' hr''
        obtain ⟨-, hg₁⟩ | ⟨hid, -, -, -, -, hrel, -⟩ := settle_tasks hT hg
        · obtain ⟨-, hg₂⟩ | ⟨hid, -, -, -, -, hrel, -⟩ := settle_tasks hT hg''
          · exact (h.release _ _ hg₁ hr).2.2 _ _ hg₂ hr''
          · rw [hid]
            exact (h.release _ _ hg₁ hr).2.2 _ _ hT hrel
        · rw [hid]
          obtain ⟨-, hg₂⟩ | ⟨hid, -⟩ := settle_tasks hT hg''
          · exact (h.release _ _ hT hrel).2.2 _ _ hg₂ hr''
          · exact hid
      rw [hs.cur]
      obtain ⟨hne, hg'⟩ | ⟨rfl, -, -, -, -, hrel, hheld⟩ := settle_tasks hT hg
      · obtain ⟨hheld, hcur, hone⟩ := h.release _ _ hg' hr
        refine ⟨?_, hcur, huniq⟩
        -- the task that ended is not a release, as `id'` is one
        unfold Lane.settle
        cases hc : T.caller with
        | app => exact hheld
        | release x todo keep => exact absurd (hone id T hT (by rw [Task.isRelease, hc])).symm hne
      · obtain ⟨hheld', hcur, -⟩ := h.release _ _ hT hrel
        exact ⟨hheld.trans hheld', hcur, huniq⟩
    use := by
      intro id' T' u hg hu
      rw [hs.heap]
      obtain ⟨-, hg⟩ | ⟨rfl, huse, ho, -, hrel, -⟩ := settle_tasks hT hg
      · exact h.use id' T' u hg hu
      · obtain ⟨-, hr, -⟩ := h.use id' T u hT (huse ▸ hu)
        refine ⟨hrel, hr, ?_⟩
        intro i c a hp
        rw [Task.opens, hp] at ho
        cases ho
    idle := by
      rw [hs.cur, hs.heap, hs.delivered]
      exact h.idle }

/-- The ways `receive` goes on once the MAC has been checked. -/
inductive Checked (o : ReceiverOpts) (l : Lane S I) (id : Nat) (T : Task S I) (frame : Bytes) (t : Time) :
    Lane S I → Prop
  | dropped : Checked o l id T frame t (l.settle id T false)
  | held : T.use.or l.cur = none → Checked o l id T frame t ((l.hold frame t).settle id T false)
  | refused {i : Nat} {asks : Nat} {r : SenderReceiver S} : l.heap[i]? = some r →
      Checked o l id T frame t ({ l with heap := l.heap.set i (r.prune o t), asks }.settle id T false)
  | begun {i : Nat} {c : Candidate S.Key} {a : Session.Accepted I} {r : SenderReceiver S} : l.counter frame = some a.ctr →
      T.use.or l.cur = some i → l.heap[i]? = some r → (r.prune o t).start o a.ctr = .ok c →
      Checked o l id T frame t { l with
        heap := l.heap.set i (r.prune o t)
        tasks := l.tasks.set id { T with phase := .opening i c a } }

theorem check_cases (o : ReceiverOpts) (l : Lane S I) (id : Nat) (T : Task S I) (frame : Bytes) (t : Time) :
    Checked o l id T frame t (l.check o id T frame t) := by
  unfold check
  cases ha : l.session.accept frame with
  | none => exact .dropped
  | some a =>
      dsimp only
      split
      · exact .dropped
      · rename_i hmember
        have hk : l.counter frame = some a.ctr := by
          rw [counter, ha, Option.bind_some, if_pos (not_not.mp hmember)]
        cases hi : T.use.or l.cur with
        | none => exact .held hi
        | some i =>
            dsimp only
            cases hr : l.heap[i]? with
            | none => exact .dropped
            | some r =>
                dsimp only
                cases hs : (r.prune o t).start o a.ctr with
                | ok c => exact .begun hk hi hr hs
                | error e => cases e <;> exact .refused hr

/-! ## Steps -/

structure Inv (l : Lane S I) : Prop extends Apart l, Queued l

/-- Changes to the receivers in place, and to what is held while no release is under way, keep the queue. -/
theorem Queued.change (h : Queued l) (htasks : l'.tasks = l.tasks) (hcur : l'.cur = l.cur)
    (hheld : l'.held = l.held ∨ l.cur = none)
    (hheap : ∀ (i : Nat) (r : SenderReceiver S), l.heap[i]? = some r → ∃ r', l'.heap[i]? = some r')
    (hidle : l.cur = none → l'.heap = [] ∧ l'.delivered = []) : Queued l' where
  release := by
    rw [htasks, hcur]
    intro id T hT hr
    obtain ⟨hn, hc, hone⟩ := h.release id T hT hr
    obtain hheld | hnone := hheld
    · exact ⟨hheld.trans hn, hc, hone⟩
    · exact absurd hnone hc
  use := by
    rw [htasks]
    intro id T u hT hu
    obtain ⟨hr, ⟨r, hr'⟩, hi⟩ := h.use id T u hT hu
    exact ⟨hr, hheap u r hr', hi⟩
  idle := by
    rw [hcur]
    exact hidle

theorem getElem?_set_isSome {α : Type} {xs : List α} {i j : Nat} {x y : α} (h : xs[j]? = some y) :
    ∃ y', (xs.set i x)[j]? = some y' := by
  have hlt := (List.getElem?_eq_some_iff.mp h).1
  exact ⟨_, List.getElem?_eq_getElem (by simpa using hlt)⟩

theorem Inv.receive (h : Inv l) (id : Nat) (frame : Bytes) : Inv (l.receive id frame) := by
  unfold Lane.receive
  cases hg : l.tasks.get id with
  | some T => exact h
  | none =>
      set l' : Lane S I := { l with tasks := l.tasks.set id ⟨.checking frame, none, .app⟩ } with hl'
      have htask : ∀ id' T', l'.tasks.get id' = some T' → id' ≠ id ∧ l.tasks.get id' = some T' ∨
          T' = ⟨.checking frame, none, .app⟩ := by
        intro id' T' hg'
        obtain ⟨-, rfl⟩ | ⟨hne, hg'⟩ := OrdMap.get_set_some hg'
        · exact Or.inr rfl
        · exact Or.inl ⟨hne, hg'⟩
      have hended : Ended l l' id := {
        opening := by
          rintro id' i c k ⟨T', a, hg', hp, rfl⟩
          obtain ⟨hne, hg'⟩ | rfl := htask id' T' hg'
          · exact ⟨hne, T', a, hg', hp, rfl⟩
          · cases hp
        waiting := by
          rintro id' u f ⟨T', hg', hu, hf⟩
          obtain ⟨-, hg'⟩ | rfl := htask id' T' hg'
          · exact ⟨T', hg', hu, hf⟩
          · cases hu }
      exact {
        toApart := h.toApart.ended ⟨rfl, rfl, rfl, rfl, rfl⟩ hended
        release := by
          intro id' T' hg' hr
          obtain ⟨-, hg₁⟩ | rfl := htask id' T' hg'
          · obtain ⟨hheld, hcur, hone⟩ := h.release id' T' hg₁ hr
            refine ⟨hheld, hcur, ?_⟩
            intro id'' T'' hg'' hr''
            obtain ⟨-, hg₂⟩ | rfl := htask id'' T'' hg''
            · exact hone id'' T'' hg₂ hr''
            · cases hr''
          · cases hr
        use := by
          intro id' T' u hg' hu
          obtain ⟨-, hg'⟩ | rfl := htask id' T' hg'
          · exact h.use id' T' u hg' hu
          · cases hu
        idle := h.idle }

theorem Inv.check {frame : Bytes} (h : Inv l) (hT : l.tasks.get id = some T) (hp : T.phase = .checking frame)
    (hok : ∀ i ∈ l.begins o T t, ∀ e ∈ l.tasks.entries, ∀ q ∈ e.2.opens, q.1 ≠ i) :
    Inv (l.check o id T frame t) := by
  have hcase := check_cases o l id T frame t
  generalize l.check o id T frame t = l' at hcase
  cases hcase with
  | dropped => exact ⟨h.toApart.ended (settle_same ..) (settle_ended hT false), h.toQueued.settle hT false⟩
  | held hnone =>
      have hcur : l.cur = none := by
        cases hc : l.cur with
        | none => rfl
        | some i => cases hu : T.use <;> simp [hu, hc] at hnone
      have hq : Queued (l.hold frame t) :=
        h.toQueued.change rfl rfl (Or.inr hcur) (fun i r hr => ⟨r, hr⟩) h.idle
      have ha : Apart (l.hold frame t) := h.toApart.same ⟨rfl, rfl, rfl, rfl, rfl⟩ rfl
      have hT' : (l.hold frame t).tasks.get id = some T := hT
      exact ⟨ha.ended (settle_same ..) (settle_ended hT' false), hq.settle hT' false⟩
  | @refused i asks r hr =>
      set l₁ : Lane S I := { l with heap := l.heap.set i (r.prune o t), asks } with hl₁
      have hq : Queued l₁ := h.toQueued.change rfl rfl (Or.inl rfl) (fun j r' hr' => getElem?_set_isSome hr')
        (fun hc => by
          rw [(h.idle hc).1] at hr
          cases hr)
      have ha : Apart l₁ := (h.toApart.prune hr).same ⟨rfl, rfl, rfl, rfl, rfl⟩ rfl
      have hT₁ : l₁.tasks.get id = some T := hT
      exact ⟨ha.ended (settle_same ..) (settle_ended hT₁ false), hq.settle hT₁ false⟩
  | @begun i c a r hk hi hr hs =>
      set l₁ : Lane S I := { l with heap := l.heap.set i (r.prune o t) } with hl₁
      have ha : Apart l₁ := h.toApart.prune hr
      have hq : Queued l₁ := h.toQueued.change rfl rfl (Or.inl rfl) (fun j r' hr' => getElem?_set_isSome hr')
        (fun hc => by
          rw [(h.idle hc).1] at hr
          cases hr)
      have hr₁ : l₁.heap[i]? = some (r.prune o t) :=
        List.getElem?_set_self (List.getElem?_eq_some_iff.mp hr).1
      have hbegins : l.begins o T t = some i := by
        unfold begins
        simp only [hp, hk, hi, hr, hs, Option.bind_some, Except.toOption, Option.map_some]
      have hno : ∀ id' c' k', ¬l₁.Opening id' i c' k' := by
        intro id' c' k' ho
        obtain ⟨e, he, hop⟩ := Opening.entry ho
        exact hok i hbegins e he (i, k') hop rfl
      have hone : ∀ v id' u f, T.use = some v → l₁.Waiting id' u f → id' = id := by
        rintro v id' u f hu ⟨T', hT', hu', -⟩
        have hrel := (h.use id T v hT hu).1
        exact (h.release id T hT hrel).2.2 id' T' hT' (h.use id' T' u hT' hu').1
      have hord := (h.ordered i r hr).prune (o := o) t
      refine ⟨ha.begin (l := l₁) hT hp hk hi hr₁ (hord.fits hs) (SenderReceiver.ahead_of_start hs) hno hone, ?_⟩
      exact {
        release := by
          intro id' T' hg hrel
          have hback : ∀ id'' T'', (l.tasks.set id { T with phase := .opening i c a }).get id'' = some T'' →
              T''.isRelease = true → ∃ T₀, l.tasks.get id'' = some T₀ ∧ T₀.isRelease = true := by
            intro id'' T'' hg'' hr''
            obtain ⟨rfl, rfl⟩ | ⟨-, hg''⟩ := OrdMap.get_set_some hg''
            · exact ⟨T, hT, hr''⟩
            · exact ⟨T'', hg'', hr''⟩
          obtain ⟨T₀, h₀, hr₀⟩ := hback id' T' hg hrel
          obtain ⟨hheld, hcur, hone⟩ := h.release id' T₀ h₀ hr₀
          refine ⟨hheld, hcur, ?_⟩
          intro id'' T'' hg'' hr''
          obtain ⟨T₁, h₁, hr₁⟩ := hback id'' T'' hg'' hr''
          exact hone id'' T₁ h₁ hr₁
        use := by
          intro id' T' u hg hu
          obtain ⟨rfl, rfl⟩ | ⟨-, hg⟩ := OrdMap.get_set_some hg
          · obtain ⟨hrel, hu', -⟩ := hq.use id' T u hT hu
            refine ⟨hrel, hu', ?_⟩
            rintro _ _ _ ⟨⟩
            have hTu : T.use = some u := hu
            rw [hTu, Option.some_or] at hi
            exact (Option.some.inj hi).symm
          · exact hq.use id' T' u hg hu
        idle := hq.idle }

/-- `finish` opens the frame, or only ends the call. -/
theorem finish_cases (l : Lane S I) (id : Nat) (T : Task S I) (opens : Open S) (i : Nat) (c : Candidate S.Key)
    (a : Session.Accepted I) (t : Time) : l.finish id T opens i c a t = l.settle id T false ∨
      ∃ r pt, l.heap[i]? = some r ∧ SenderReceiver.tryOpen opens c a.ctr a.header a.ct = some pt ∧
        l.finish id T opens i c a t = { l with
          heap := l.heap.set i (r.commit c a.ctr t)
          delivered := ⟨a.header, a.ct, pt⟩ :: l.delivered }.settle id T true := by
  unfold finish
  cases hr : l.heap[i]? with
  | none => exact Or.inl rfl
  | some r =>
      cases hp : SenderReceiver.tryOpen opens c a.ctr a.header a.ct with
      | none => exact Or.inl rfl
      | some pt => exact Or.inr ⟨r, pt, rfl, rfl, rfl⟩

theorem Inv.finish {a : Session.Accepted I} (h : Inv l) (hT : l.tasks.get id = some T)
    (hp : T.phase = .opening i c a) (opens : Open S) (t : Time) : Inv (l.finish id T opens i c a t) := by
  obtain he | ⟨r, pt, hr, -, he⟩ := finish_cases l id T opens i c a t
  · rw [he]
    exact ⟨h.toApart.ended (settle_same ..) (settle_ended hT false), h.toQueued.settle hT false⟩
  · rw [he]
    set l₁ : Lane S I := { l with
      heap := l.heap.set i (r.commit c a.ctr t)
      delivered := ⟨a.header, a.ct, pt⟩ :: l.delivered } with hl₁
    have hT₁ : l₁.tasks.get id = some T := hT
    have hs := settle_same l₁ id T true
    have hq : Queued l₁ := h.toQueued.change rfl rfl (Or.inl rfl) (fun j r' hr' => getElem?_set_isSome hr')
      (fun hc => by
        rw [(h.idle hc).1] at hr
        cases hr)
    have hown : ∀ u frame, l.Waiting id u frame → u = i := by
      rintro u frame ⟨T', hT', hu, -⟩
      rw [hT] at hT'
      cases hT'
      exact ((h.use id T u hT hu).2.2 i c a hp).symm
    refine ⟨h.toApart.commit ⟨T, a, hT, hp, rfl⟩ hr hown hs.session hs.member hs.cur hs.heap ?_ ?_,
      hq.settle hT₁ true⟩
    · rw [hs.delivered]
      rfl
    · have hend := settle_ended hT₁ true
      exact ⟨hend.opening, hend.waiting⟩

/-- A release begins, with the session's receivers or one of its own; none was under way. -/
theorem Queued.begin (h : Queued l) (hheld : l.held.isSome) (hcur : l.cur ≠ none) {use : Option Nat} {x : Held}
    {todo : List Held} (hnew : l.tasks.get id = none) (huse : ∀ u, use = some u → ∃ r, l.heap[u]? = some r) :
    Queued { l with held := none, tasks := l.tasks.set id ⟨.checking x.frame, use, .release x todo []⟩ } where
  release := by
    intro id' T hT hr
    have hnone : ∀ id'' T'', l.tasks.get id'' = some T'' → T''.isRelease = false := by
      intro id'' T'' hT''
      cases hrel : T''.isRelease with
      | false => rfl
      | true =>
          rw [(h.release id'' T'' hT'' hrel).1] at hheld
          cases hheld
    have hid : ∀ id'' T'', (l.tasks.set id ⟨.checking x.frame, use, .release x todo []⟩).get id'' = some T'' →
        T''.isRelease = true → id'' = id := by
      intro id'' T'' hg hrel
      obtain ⟨rfl, -⟩ | ⟨-, hg⟩ := OrdMap.get_set_some hg
      · rfl
      · rw [hnone id'' T'' hg] at hrel
        cases hrel
    refine ⟨rfl, hcur, ?_⟩
    intro id'' T'' hg hrel
    rw [hid id' T hT hr]
    exact hid id'' T'' hg hrel
  use := by
    intro id' T u hT hu
    obtain ⟨-, rfl⟩ | ⟨-, hT⟩ := OrdMap.get_set_some hT
    · exact ⟨rfl, huse u hu, fun i c a hp => by cases hp⟩
    · exact h.use id' T u hT hu
  idle hc := absurd hc hcur

theorem Inv.startRelease (h : Inv l) (hheld : l.held.isSome) (hcur : l.cur ≠ none) {use : Option Nat}
    (hnew : l.tasks.get id = none) (huse : ∀ u, use = some u → ∃ r, l.heap[u]? = some r)
    (hapart : ∀ x todo, l.heldSince t = x :: todo → Apart { l with
      held := none, tasks := l.tasks.set id ⟨.checking x.frame, use, .release x todo []⟩ }) :
    Inv (l.release id use t) := by
  unfold Lane.release
  cases hq : l.heldSince t with
  | cons x todo => exact ⟨hapart x todo hq, h.toQueued.begin hheld hcur hnew huse⟩
  | nil =>
      -- all that was held is too old
      have htask : ∀ id' T, (l.tasks.delete id).get id' = some T → l.tasks.get id' = some T :=
        fun id' T hT => (OrdMap.get_delete_some hT).2
      exact {
        toApart := by
          refine h.toApart.mono ⟨rfl, rfl, rfl, rfl, rfl⟩ ?_ ?_
          · rintro id' i c k ⟨T, a, hT, hp, hk⟩
            exact ⟨T, a, htask id' T hT, hp, hk⟩
          · rintro id' u f ⟨T, hT, hu, hf⟩
            exact ⟨T, htask id' T hT, hu, hf⟩
        release := by
          intro id' T hT hr
          obtain ⟨-, hc, hone⟩ := h.release id' T (htask id' T hT) hr
          exact ⟨rfl, hc, fun id'' T' hT' => hone id'' T' (htask id'' T' hT')⟩
        use := fun id' T u hT => h.use id' T u (htask id' T hT)
        idle := h.idle }

theorem Inv.setSenderKey {key : S.Key} {ctr : Nat} (h : Inv l) (hok : l.Orderly o (.setSenderKey id key ctr t)) :
    Inv (l.setSenderKey id key ctr t) := by
  have huse : ∀ id u f, l.Waiting id u f → ∃ r, l.heap[u]? = some r := by
    rintro id u f ⟨T, hT, hu, -⟩
    exact (h.use id T u hT hu).2.1
  set l₁ : Lane S I := { l with heap := l.heap ++ [SenderReceiver.make key ctr] } with hl₁
  have ha₁ : Apart l₁ := h.toApart.append (Ordered.make key ctr) huse
  have hlast : l₁.heap[l.heap.length]? = some (.make key ctr) := List.getElem?_concat_length
  have hgrow : ∀ (i : Nat) (r : SenderReceiver S), l.heap[i]? = some r → ∃ r', l₁.heap[i]? = some r' := by
    intro i r hr
    exact ⟨r, by rw [hl₁, List.getElem?_append_left (List.getElem?_eq_some_iff.mp hr).1, hr]⟩
  have hlive₁ : l.cur ≠ none → l₁.live = l.live := by
    intro hc
    obtain ⟨i, hi⟩ := Option.ne_none_iff_exists'.mp hc
    obtain ⟨r, hr⟩ := h.valid i hi
    have hr₁ : l₁.heap[i]? = some r := by rw [hl₁, List.getElem?_append_left (List.getElem?_eq_some_iff.mp hr).1, hr]
    rw [live_eq_some.mpr ⟨i, hi, hr⟩]
    exact live_eq_some.mpr ⟨i, hi, hr₁⟩
  unfold Lane.setSenderKey
  split
  · exact h
  rename_i hid
  have hnew : l.tasks.get id = none := by simpa using hid
  split
  · exact h
  dsimp only
  split
  · rename_i hold
    obtain ⟨r, hr, hlt⟩ := (Option.any_eq_true _ _).mp hold
    have hcur : l.cur ≠ none := by
      obtain ⟨i, hi, -⟩ := live_eq_some.mp hr
      rw [hi]
      exact Option.some_ne_none i
    have hclear : l.HeldClear r ctr t := by
      have hr' := hok r hr
      rw [if_pos (of_decide_eq_true hlt)] at hr'
      exact hr'
    have hi₁ : Inv l₁ := ⟨ha₁, h.toQueued.change rfl rfl (Or.inl rfl) hgrow (fun hc => absurd hc hcur)⟩
    split
    · rename_i hheld
      refine hi₁.startRelease hheld hcur hnew ?_ ?_
      · rintro u ⟨⟩
        exact ⟨_, hlast⟩
      · intro x todo hq
        exact ha₁.aside hlast ((hlive₁ hcur).trans hr) hclear hq
    · exact h
  · rename_i hold
    set l₂ : Lane S I := { l₁ with cur := some l.heap.length } with hl₂
    have hfirst : l₁.cur = none →
        l₁.delivered = [] ∧ (∀ id i c k, ¬l₁.Opening id i c k) ∧ ∀ id u f, ¬l₁.Waiting id u f := by
      intro hc
      have hempty := (h.idle hc).1
      refine ⟨(h.idle hc).2, ?_, ?_⟩
      · intro id i c k ho
        obtain ⟨r, hr, -⟩ := h.opening id i c k ho
        rw [hempty] at hr
        cases hr
      · intro id u f hw
        obtain ⟨r, hr⟩ := huse id u f hw
        rw [hempty] at hr
        cases hr
    have hn : ∀ r, l₁.live = some r → r.n ≤ ctr ∧ l₁.OpensBelow ctr := by
      intro r hr
      by_cases hc : l.cur = none
      · obtain ⟨i, hi, -⟩ := live_eq_some.mp hr
        have hi' : l.cur = some i := hi
        rw [hc] at hi'
        cases hi'
      · rw [hlive₁ hc] at hr
        have hge : ¬ctr < r.n := fun hlt => hold ((Option.any_eq_true _ _).mpr ⟨r, hr, decide_eq_true hlt⟩)
        have hr' := hok r hr
        rw [if_neg hge] at hr'
        exact ⟨Nat.not_lt.mp hge, hr'⟩
    have hi₂ : Inv l₂ := {
      toApart := ha₁.replace hlast hfirst hn
      release := by
        intro id T hT hr
        obtain ⟨hheld, -, hone⟩ := h.release id T hT hr
        exact ⟨hheld, Option.some_ne_none _, hone⟩
      use := by
        intro id T u hT hu
        obtain ⟨hr, ⟨r, hr'⟩, hi⟩ := h.use id T u hT hu
        exact ⟨hr, hgrow u r hr', hi⟩
      idle := fun hc => absurd hc (Option.some_ne_none _) }
    split
    · rename_i hheld
      refine hi₂.startRelease hheld (Option.some_ne_none _) hnew (fun u hu => by cases hu) ?_
      intro x todo hq
      refine hi₂.toApart.mono ⟨rfl, rfl, rfl, rfl, rfl⟩ ?_ ?_
      · rintro id' i c k ⟨T, a, hT, hp, hk⟩
        obtain ⟨-, rfl⟩ | ⟨-, hT⟩ := OrdMap.get_set_some hT
        · cases hp
        · exact ⟨T, a, hT, hp, hk⟩
      · rintro id' u f ⟨T, hT, hu, hf⟩
        obtain ⟨-, rfl⟩ | ⟨-, hT⟩ := OrdMap.get_set_some hT
        · cases hu
        · exact ⟨T, hT, hu, hf⟩
    · exact hi₂

theorem Inv.start (v : Session I) (member : I.Pub) : Inv (Lane.start v member : Lane S I) := by
  have hnone : ∀ id, (Lane.start v member : Lane S I).tasks.get id = none := fun _ => rfl
  have hopen : ∀ id i c k, ¬(Lane.start v member : Lane S I).Opening id i c k := by
    rintro id i c k ⟨T, a, hT, -⟩
    cases hT
  have hlive : ∀ r, (Lane.start v member : Lane S I).live ≠ some r := by
    rintro r ⟨⟩
  exact {
    ordered := fun i r hr => by cases hr
    valid := fun i hi => by cases hi
    opening := fun id i c k ho => absurd ho (hopen id i c k)
    apart := fun id _ i _ c _ k _ ho => absurd ho (hopen id i c k)
    unspent := fun id i c k ho => absurd ho (hopen id i c k)
    past := fun r k hr => absurd hr (hlive r)
    beside := fun r id i c k hr => absurd hr (hlive r)
    own := fun id u f k r hw hk hr => by cases hr
    nodup := List.nodup_nil
    release := fun id T hT => by cases hT
    use := fun id T u hT => by cases hT
    idle := fun _ => ⟨rfl, rfl⟩ }

theorem Inv.act {a : LaneAct S} (h : Inv l) (hok : l.Orderly o a) : Inv (l.act o a) := by
  cases a with
  | receive id frame => exact h.receive id frame
  | setSenderKey id key ctr t => exact h.setSenderKey hok
  | resume id opens t =>
      rw [Lane.act, Lane.resume]
      cases hT : l.tasks.get id with
      | none => exact h
      | some T =>
          dsimp only
          cases hp : T.phase with
          | checking frame => exact h.check hT hp (hok T hT)
          | opening i c a => exact h.finish hT hp opens t

theorem Inv.reach {v : Session I} {member : I.Pub} (h : Reach (Lane.act o) (Orderly o) (Lane.start v member) l) :
    Inv l :=
  h.invariant (Inv.start v member) fun _ _ hi hok => hi.act hok

/-- No sealed frame was handed out twice. -/
def Once (l : Lane S I) : Prop := (l.delivered.map fun d => (d.header, d.ct)).Nodup

instance (l : Lane S I) : Decidable l.Once := inferInstanceAs (Decidable (List.Nodup _))

/-- Whatever frames are handed over and whatever copies arrive, in a run that keeps openings apart. -/
theorem delivered_once {v : Session I} {member : I.Pub}
    (h : Reach (Lane.act o) (Orderly o) (Lane.start v member) l) : l.Once := by
  have hnodup := (Inv.reach h).nodup
  have hctr : l.delivered.map Delivery.ctr =
      (l.delivered.map fun d => (d.header, d.ct)).map fun q => (decodeHeader q.1).ctr := by
    rw [List.map_map]
    rfl
  rw [hctr] at hnodup
  exact hnodup.of_map _

end Lane

/-! ## A frame held twice -/

namespace Symbolic

/-- Three frames of member 1, one after another. -/
def threeSent : Sender suite identities :=
  play ((List.range 3).flatMap fun i =>
    [.send i [UInt8.ofNat i]] ++ List.replicate 4 (.resume i))

/-- The frame at counter `i`. -/
def frameAt (i : Nat) : Bytes := (threeSent.frames.reverse[i]?).elim [] Sent.frame

/-- Frames of member 1, honest copies of its key, and tasks that go on. -/
inductive Cmd where
  | frame (id i : Nat)
  | copy (id ctr : Nat)
  | go (id : Nat)

def Cmd.act : Cmd → LaneAct suite
  | .frame id i => .receive id (frameAt i)
  | .copy id ctr => .setSenderKey id (suite.chain.chainAt seed ctr) ctr 0
  | .go id => .resume id (Box.openIn threeSent.log) 0

def laneOf : Lane suite identities := .start { pair with me := (2 : UInt8) } (1 : UInt8)

/-- The frame is handed over twice before its key, which opens it once and holds it once; an older copy then
opens what is held. -/
def heldTwice : List Cmd :=
  [.frame 0 0, .go 0, .frame 0 0, .go 0, .copy 0 0, .go 0, .go 0, .go 0, .copy 0 0, .go 0, .go 0]

/-- The key at counter 1 comes first, then the one below it; later a frame overtakes another. -/
def overtaken : List Cmd :=
  [.frame 0 0, .go 0, .copy 0 1, .go 0, .copy 0 0, .go 0, .go 0, .frame 0 2, .go 0, .go 0, .frame 0 1, .go 0,
    .go 0, .frame 0 1, .go 0]

theorem heldTwice_delivered_twice : ∃ cmds : List Cmd,
    ¬((cmds.map Cmd.act).foldl (Lane.act {}) laneOf).Once :=
  ⟨heldTwice, by decide +kernel⟩

theorem overtaken_delivered_once : ((overtaken.map Cmd.act).foldl (Lane.act {}) laneOf).Once ∧
    ((overtaken.map Cmd.act).foldl (Lane.act {}) laneOf).delivered.length = 3 := by
  have hadm : Admits (Lane.act {}) (Lane.Orderly {}) laneOf (overtaken.map Cmd.act) := by decide
  exact ⟨Lane.delivered_once (hadm.reach .start), by decide⟩

end Symbolic

end EncedoChat.Group
