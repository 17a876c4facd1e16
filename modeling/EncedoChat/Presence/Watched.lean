import EncedoChat.Presence.Held

/-!
# One watch for a contact

`startWatch` looks at `presence` before it awaits and not again after it; so what one call has added meanwhile, or
another has taken away, is not seen by the watch that comes then.
-/

namespace EncedoChat.Presence

namespace Session

variable {P T : Type} [DecidableEq P] [DecidableEq T] {C : Pairs P T} {s z : Session P T}

/-- A watch of a contact that has not been stopped. -/
def Live (s : Session P T) (peer : P) (i : Nat) : Prop := ∃ w, s.watches[i]? = some w ∧ w.peer = peer ∧ w.stopped = false

/-- A live watch with a day whose topic is subscribed, on which it announces. -/
def Announces (s : Session P T) (peer : P) (i : Nat) : Prop :=
  s.Live peer i ∧ ∃ d t, s.holds (.day i d) = some t ∧ t ∈ s.subscribed

/-- A session, and the contacts that were unwatched since `watchContacts` last asked for them. -/
structure Asked (P T : Type) where
  session : Session P T
  unwatched : List P

namespace Asked

def start : Asked P T := ⟨.start, []⟩

def after (unwatched : List P) : Event P → List P
  | .unwatch peer => peer :: unwatched
  | .watchContacts contacts => unwatched.filter (· ∉ contacts)
  | _ => unwatched

variable (C) in
def step (a : Asked P T) (e : Event P) : Asked P T := ⟨a.session.step C e, after a.unwatched e⟩

variable (C) in
def run (es : List (Event P)) : Asked P T := es.foldl (step C) start

/-- At most one watch of a contact, none of a contact that was unwatched and none once the session closes. -/
structure Single (a : Asked P T) : Prop where
  one : ∀ peer i j, a.session.Live peer i → a.session.Live peer j → i = j
  gone : ∀ peer i, peer ∈ a.unwatched ∨ a.session.closed = true → ¬ a.session.Live peer i

/-- When the offset that `startWatch` awaits is there, the session is open, the contact has no watch, and was not
unwatched meanwhile. -/
def Clear (a : Asked P T) : Event P → Prop
  | .resume k _ _ true => a.session.down = false → ∀ peer rest, a.session.calls[k]? = some (.watching peer rest) →
      a.session.closed = false ∧ a.session.presence.has peer = false ∧ peer ∉ a.unwatched
  | _ => True

end Asked

/-! ## What a step does to the watches -/

/-- Whose watches there are, and which have stopped. -/
def stand (s : Session P T) : List (P × Bool) := s.watches.map fun w => (w.peer, w.stopped)

omit [DecidableEq P] [DecidableEq T] in
theorem live_iff {peer : P} {i : Nat} : s.Live peer i ↔ s.stand[i]? = some (peer, false) := by
  rw [stand, List.getElem?_map]
  simp only [Live, Option.map_eq_some_iff, Prod.mk.injEq]

/-- `shutdown` is over, or awaits its end. -/
def Ends (s : Session P T) : Prop := s.down = true ∨ Call.closing ∈ s.calls

/-- Neither whose watches there are nor the table of them changes, and the session does not end. -/
structure Keeps (s z : Session P T) : Prop where
  stand : z.stand = s.stand
  presence : z.presence = s.presence
  closed : z.closed = s.closed
  ends : z.Ends → s.Ends

omit [DecidableEq P] [DecidableEq T] in
theorem Keeps.refl (s : Session P T) : Keeps s s := ⟨rfl, rfl, rfl, id⟩

omit [DecidableEq P] [DecidableEq T] in
theorem Keeps.trans {y : Session P T} (h : Keeps s y) (h' : Keeps y z) : Keeps s z :=
  ⟨h'.stand.trans h.stand, h'.presence.trans h.presence, h'.closed.trans h.closed, h.ends ∘ h'.ends⟩

omit [DecidableEq P] [DecidableEq T] in
/-- One more call, which is no end. -/
theorem ends_call {c : Call P} (hc : c ≠ .closing) (hdown : z.down = s.down) (hcalls : z.calls = s.calls ++ [c])
    (h : z.Ends) : s.Ends := by
  rw [Ends, hdown, hcalls, List.mem_append, List.mem_singleton] at h
  exact h.imp_right fun hin => hin.resolve_right (Ne.symm hc)

omit [DecidableEq P] [DecidableEq T] in
/-- A watch that goes on as what it is. -/
theorem Keeps.setWatch {i : Nat} {w v : Watch P T} (hw : s.watches[i]? = some w) (hpeer : v.peer = w.peer)
    (hstopped : v.stopped = w.stopped) (hwatches : z.watches = s.watches.set i v) (hpres : z.presence = s.presence)
    (hclosed : z.closed = s.closed) (hends : z.Ends → s.Ends) : Keeps s z := by
  refine ⟨?_, hpres, hclosed, hends⟩
  obtain ⟨hi, rfl⟩ := List.getElem?_eq_some_iff.mp hw
  have hlen : i < (s.watches.map fun w => (w.peer, w.stopped)).length := by rwa [List.length_map]
  have hset := List.set_getElem_self hlen
  rw [List.getElem_map] at hset
  rw [Session.stand, hwatches, List.map_set, hpeer, hstopped, hset, Session.stand]

theorem keeps_syncFrom {y : Session P T} (h : Keeps s y) {i : Nat} {w₀ w : Watch P T} (hw : y.watches[i]? = some w₀)
    (hpeer : w.peer = w₀.peer) (hstopped : w.stopped = w₀.stopped) (want todo : List Date) :
    Keeps s (y.syncFrom i w want todo) := by
  rcases syncFrom_eq (s := y) i w want todo with ⟨-, heq⟩ | ⟨-, d, ds, heq, -⟩
  · rw [heq, prune_eq]
    exact h.trans (.setWatch (v := { w with slots := w.slots.filter fun d _ => d ∈ want }) hw hpeer hstopped rfl rfl rfl id)
  · rw [heq]
    exact h.trans (.setWatch (v := { w with slots := w.slots.set d none, sync := some (want, d, ds) }) hw hpeer hstopped
      rfl rfl rfl id)

theorem keeps_sync (i : Nat) (now : Time) : Keeps s (s.sync C i now) := by
  unfold sync
  cases hw : s.watches[i]? with
  | none => exact .refl s
  | some w =>
      simp only
      split
      · exact .refl s
      · exact keeps_syncFrom (.refl s) hw rfl rfl _ _

theorem keeps_derived (i : Nat) (ok : Bool) : Keeps s (s.derived C i ok) := by
  unfold derived
  cases hw : s.watches[i]? with
  | none => exact .refl s
  | some w =>
      simp only
      split
      · exact .refl s
      case h_2 want d ds hsync =>
        split
        · exact .setWatch (v := { w with sync := none }) hw rfl rfl rfl rfl rfl id
        · split
          · exact .setWatch (v := { w with slots := w.slots.delete d, sync := none }) hw rfl rfl rfl rfl rfl id
          · have hsub : Keeps s (s.subscribe (C.pairDay w.peer d)) := ⟨rfl, rfl, rfl, id⟩
            exact keeps_syncFrom (w := { w with slots := w.slots.set d (some (C.pairDay w.peer d)), sync := none })
              hsub hw rfl rfl want ds

omit [DecidableEq P] in
theorem keeps_stopRoom (i : Nat) : Keeps s (s.stopRoom i) := by
  unfold stopRoom
  split <;> exact ⟨rfl, rfl, rfl, id⟩

theorem keeps_stopRooms (is : List Nat) : Keeps s (is.foldl stopRoom s) := by
  induction is generalizing s with
  | nil => exact .refl s
  | cons i is ih => exact (keeps_stopRoom i).trans ih

theorem keeps_opened (i : Nat) : Keeps s (s.opened i) := by
  unfold opened
  split
  · exact .refl s
  · split <;> exact ⟨rfl, rfl, rfl, id⟩

theorem keeps_leave (i : Nat) : Keeps s (s.leave i) := by
  unfold leave
  split
  · exact .refl s
  · split
    · exact .refl s
    · dsimp only
      split
      · exact ⟨rfl, rfl, rfl, ends_call (fun h => by cases h) rfl rfl⟩
      · split <;> exact ⟨rfl, rfl, rfl, ends_call (fun h => by cases h) rfl rfl⟩

theorem keeps_realign (peer : P) (date : Option Date) : Keeps s (s.realign peer date) := by
  unfold realign
  split
  · exact .refl s
  · split
    · exact .refl s
    · exact ⟨rfl, rfl, rfl, ends_call (fun h => by cases h) rfl rfl⟩

theorem keeps_handshake (i : Nat) (date : Date) (wall : Time) : Keeps s (s.handshake i date wall) := by
  unfold handshake
  split
  · exact .refl s
  · split
    · exact .refl s
    · split
      · exact keeps_realign ..
      · exact ⟨rfl, rfl, rfl, id⟩

/-! ## Watches that stop and start -/

theorem live_stopRotating (handed : Option Date) (i : Nat) {peer : P} {j : Nat} :
    (s.stopRotating handed i).Live peer j ↔ s.Live peer j ∧ j ≠ i := by
  cases hw : s.watches[i]? with
  | none =>
      rw [stopRotating_none hw]
      refine ⟨fun h => ⟨h, ?_⟩, And.left⟩
      rintro rfl
      obtain ⟨w, hw', -⟩ := h
      rw [hw] at hw'
      cases hw'
  | some w =>
      rw [stopRotating_eq hw]
      simp only [Live, List.getElem?_set]
      obtain ⟨hi, -⟩ := List.getElem?_eq_some_iff.mp hw
      by_cases hj : i = j
      · subst hj
        simp [hi]
      · simp [hj, Ne.symm hj]

theorem live_stopAll (ws : List Nat) (handed : Option Date) {peer : P} {j : Nat} :
    (ws.foldl (stopRotating · handed) s).Live peer j ↔ s.Live peer j ∧ j ∉ ws := by
  induction ws generalizing s with
  | nil => simp
  | cons w ws ih =>
      rw [List.foldl_cons, ih, live_stopRotating, List.mem_cons, not_or, and_assoc]

/-- What a watch that stops leaves alone. -/
theorem rest_stopRotating (handed : Option Date) (i : Nat) : (s.stopRotating handed i).presence = s.presence ∧
    (s.stopRotating handed i).closed = s.closed ∧ ((s.stopRotating handed i).Ends → s.Ends) := by
  cases hw : s.watches[i]? with
  | none =>
      rw [stopRotating_none hw]
      exact ⟨rfl, rfl, id⟩
  | some w =>
      rw [stopRotating_eq hw]
      exact ⟨rfl, rfl, id⟩

theorem closed_stopAll (ws : List Nat) (handed : Option Date) :
    (ws.foldl (stopRotating · handed) s).closed = s.closed := by
  induction ws generalizing s with
  | nil => rfl
  | cons w ws ih => rw [List.foldl_cons, ih, (rest_stopRotating handed w).2.1]

omit [DecidableEq T] in
theorem live_addWatch {peer q : P} {j : Nat} :
    (s.addWatch peer).Live q j ↔ s.Live q j ∨ q = peer ∧ j = s.watches.length := by
  have hwatches : (s.addWatch peer).watches = s.watches ++ [⟨peer, .empty, false, none⟩] := rfl
  unfold Live
  rw [hwatches]
  rcases Nat.lt_trichotomy j s.watches.length with hj | rfl | hj
  · rw [List.getElem?_append_left hj]
    simp [Nat.ne_of_lt hj]
  · rw [List.getElem?_concat_length, List.getElem?_eq_none (Nat.le_refl _)]
    constructor
    · rintro ⟨w, hw, rfl, -⟩
      obtain rfl := Option.some.inj hw
      exact .inr ⟨rfl, rfl⟩
    · rintro (⟨w, hw, -⟩ | ⟨rfl, -⟩)
      · cases hw
      · exact ⟨_, rfl, rfl, rfl⟩
  · rw [List.getElem?_eq_none (by rw [List.length_append, List.length_singleton]; omega),
      List.getElem?_eq_none (Nat.le_of_lt hj)]
    simp [Nat.ne_of_gt hj]

/-! ## The table of watches -/

namespace Asked

/-- The table has just the live watches, and none that should be gone. -/
structure Tabled (a : Asked P T) : Prop where
  table : ∀ peer i, a.session.presence.get peer = some i ↔ a.session.Live peer i
  gone : ∀ peer, peer ∈ a.unwatched ∨ a.session.closed = true → a.session.presence.get peer = none
  ends : a.session.Ends → a.session.closed = true

variable {a b : Asked P T}

omit [DecidableEq T] in
theorem Tabled.start : (start : Asked P T).Tabled where
  table peer i := by
    constructor
    · intro h
      cases h
    · rintro ⟨w, hw, -⟩
      cases hw
  gone peer _ := rfl
  ends h := by simp [Ends, Asked.start, Session.start] at h

omit [DecidableEq T] in
theorem Tabled.single (h : a.Tabled) : a.Single where
  one peer i j hi hj := Option.some.inj (((h.table peer i).mpr hi).symm.trans ((h.table peer j).mpr hj))
  gone peer i hgone hi := by
    have hnone := h.gone peer hgone
    rw [(h.table peer i).mpr hi] at hnone
    cases hnone

theorem Tabled.keeps (h : a.Tabled) (hk : Keeps a.session b.session) (hu : b.unwatched ⊆ a.unwatched) : b.Tabled where
  table peer i := by rw [hk.presence, h.table, live_iff, live_iff, hk.stand]
  gone peer hgone := by
    rw [hk.presence]
    exact h.gone peer (hgone.imp (fun hin => hu hin) fun hc => hk.closed ▸ hc)
  ends he := hk.closed ▸ h.ends (hk.ends he)

omit [DecidableEq T] in
/-- The watch of one contact stops, and leaves the table. -/
theorem Tabled.remove (h : a.Tabled) (peer : P)
    (hlive : ∀ q j, b.session.Live q j ↔ a.session.Live q j ∧ a.session.presence.get peer ≠ some j)
    (hpres : ∀ q, b.session.presence.get q = if q = peer then none else a.session.presence.get q)
    (hclosed : b.session.closed = a.session.closed) (hends : b.session.Ends → a.session.Ends)
    (hu : ∀ q ∈ b.unwatched, q = peer ∨ q ∈ a.unwatched) : b.Tabled where
  table q j := by
    rw [hpres, hlive, ← h.table]
    by_cases hq : q = peer
    · subst hq
      simp
    · rw [if_neg hq]
      refine ⟨fun hget => ⟨hget, fun hpeer => hq ?_⟩, And.left⟩
      obtain ⟨w, hw, rfl, -⟩ := (h.table q j).mp hget
      obtain ⟨w', hw', rfl, -⟩ := (h.table peer j).mp hpeer
      rw [Option.some.inj (hw.symm.trans hw')]
  gone q hgone := by
    rw [hpres]
    split
    · rfl
    case isFalse hq =>
      refine h.gone q (hgone.imp (fun hin => (hu q hin).resolve_left hq) fun hc => ?_)
      rwa [← hclosed]
  ends he := hclosed ▸ h.ends (hends he)

theorem Tabled.stopWatch (h : a.Tabled) (peer : P) :
    Tabled (⟨a.session.stopWatch peer, peer :: a.unwatched⟩ : Asked P T) := by
  refine h.remove peer ?_ ?_ ?_ ?_ fun q hq => List.mem_cons.mp hq
  · intro q j
    unfold Session.stopWatch
    split
    case h_1 hnone => simp [hnone, Live]
    case h_2 i hsome =>
      rw [hsome]
      refine (live_stopRotating (s := a.session) none i).trans ?_
      simp [eq_comm]
  · intro q
    unfold Session.stopWatch
    split
    case h_1 hnone =>
      split
      case isTrue hq => rw [hq, hnone]
      · rfl
    · dsimp only
      rw [(rest_stopRotating none _).1, OrdMap.get_delete]
  · unfold Session.stopWatch
    split
    · rfl
    · exact (rest_stopRotating none _).2.1
  · unfold Session.stopWatch
    split
    · exact id
    · exact (rest_stopRotating none _).2.2

theorem Tabled.handOff (h : a.Tabled) (peer : P) (now : Time) :
    Tabled (⟨a.session.handOff C peer now, a.unwatched⟩ : Asked P T) := by
  cases hget : a.session.presence.get peer with
  | none =>
      refine h.keeps ?_ (List.Subset.refl _)
      simp only [Session.handOff, hget]
      exact .refl _
  | some i =>
      refine h.remove peer ?_ ?_ ?_ ?_ fun q hq => .inr hq
      · intro q j
        simp only [Session.handOff, hget]
        refine (live_stopRotating (s := a.session) _ i).trans ?_
        simp [eq_comm]
      · intro q
        simp only [Session.handOff, hget]
        rw [(rest_stopRotating _ _).1, OrdMap.get_delete]
      · simp only [Session.handOff, hget]
        exact (rest_stopRotating _ _).2.1
      · simp only [Session.handOff, hget]
        exact (rest_stopRotating _ _).2.2

/-- The session closes: all that is in the table stops. -/
theorem Tabled.shutdown (h : a.Tabled) : Tabled (⟨a.session.shutdown, a.unwatched⟩ : Asked P T) := by
  by_cases hc : a.session.closed = true
  · simp only [Session.shutdown, if_pos hc]
    exact h
  · have hempty : a.session.shutdown.presence = .empty := by simp only [Session.shutdown, if_neg hc]
    refine ⟨fun q j => ?_, fun q _ => by rw [hempty]; rfl, fun _ => ?_⟩
    case refine_2 =>
      simp only [Session.shutdown, if_neg hc]
      exact closed_stopAll ..
    have hlive : a.session.shutdown.Live q j ↔
        a.session.Live q j ∧ j ∉ a.session.presence.entries.map Prod.snd := by
      simp only [Session.shutdown, if_neg hc]
      exact live_stopAll (s := { a.session with closed := true }) _ none
    rw [hempty, hlive]
    constructor
    · intro hget
      cases hget
    · rintro ⟨hq, hnot⟩
      have hmem := OrdMap.get_eq_some.mp ((h.table q j).mpr hq)
      exact absurd (List.mem_map.mpr ⟨_, hmem, rfl⟩) hnot

/-- A watch comes of a contact that has none, and that somebody still asks for. -/
theorem Tabled.addWatch (h : a.Tabled) {peer : P} (hclosed : a.session.closed = false)
    (hfree : a.session.presence.has peer = false) (hasked : peer ∉ a.unwatched) :
    Tabled (⟨a.session.addWatch peer, a.unwatched⟩ : Asked P T) where
  table q j := by
    have hpres : (a.session.addWatch peer).presence = a.session.presence.set peer a.session.watches.length := rfl
    rw [hpres, OrdMap.get_set, live_addWatch, ← h.table]
    by_cases hq : q = peer
    · subst hq
      have hnone : a.session.presence.get q = none := Option.isNone_iff_eq_none.mp (by simpa [OrdMap.has] using hfree)
      simp [hnone, eq_comm]
    · simp [hq]
  gone q hgone := by
    have hpres : (a.session.addWatch peer).presence = a.session.presence.set peer a.session.watches.length := rfl
    rw [hpres, OrdMap.get_set]
    split
    case isTrue hq =>
      rcases hgone with hin | hc
      · exact absurd (hq ▸ hin) hasked
      · rw [← Bool.not_eq_true] at hclosed
        exact absurd hc hclosed
    · exact h.gone q hgone
  ends := h.ends

theorem Tabled.goOn (h : a.Tabled) (now wall : Time) (ok : Bool) (c : Call P)
    (hclosing : c = .closing → a.session.closed = true) (hclear : ok = true → ∀ peer rest, c = .watching peer rest →
      a.session.closed = false ∧ a.session.presence.has peer = false ∧ peer ∉ a.unwatched) :
    Tabled (⟨(a.session.goOn C now wall ok c).1, a.unwatched⟩ : Asked P T) := by
  have hkeep : ∀ z : Session P T, Keeps a.session z → Tabled (⟨z, a.unwatched⟩ : Asked P T) :=
    fun z hz => h.keeps hz (List.Subset.refl _)
  cases c with
  | opening peer pending =>
      cases ok with
      | false => exact h
      | true => exact h.handOff peer now
  | joining peer date wasWatched =>
      cases ok with
      | false => exact h
      | true => exact hkeep _ ⟨rfl, rfl, rfl, id⟩
  | leaving i => exact hkeep _ (keeps_stopRoom i)
  | left i =>
      simp only [Session.goOn]
      split
      · exact h
      · split <;> exact h
  | contacts rest => cases rest <;> exact h
  | watching peer rest =>
      cases ok with
      | false => exact h
      | true =>
          obtain ⟨hclosed, hfree, hasked⟩ := hclear rfl peer rest rfl
          exact h.addWatch hclosed hfree hasked
  | realigning i peer date => cases ok <;> exact h
  | moving i peer date =>
      simp only [Session.goOn]
      split
      · exact h
      · split
        · exact h
        · exact hkeep _ ⟨rfl, rfl, rfl, id⟩
  | closing =>
      have hrooms := keeps_stopRooms (s := a.session) a.session.registered
      have hstopped : Tabled (⟨a.session.registered.foldl stopRoom a.session, a.unwatched⟩ : Asked P T) := hkeep _ hrooms
      exact ⟨hstopped.table, hstopped.gone, fun _ => hrooms.closed.trans (hclosing rfl)⟩

omit [DecidableEq T] in
theorem startWatch_ne_closing (peer : P) (rest : List P) : s.startWatch peer rest ≠ .closing := by
  unfold startWatch
  split <;> exact fun h => by cases h

theorem next_ne_closing (now wall : Time) (ok : Bool) (c : Call P) : (s.goOn C now wall ok c).2 ≠ some .closing := by
  cases c with
  | left i =>
      simp only [Session.goOn]
      split
      · exact fun h => by cases h
      · split
        · exact fun h => startWatch_ne_closing _ _ (Option.some.inj h)
        · exact fun h => by cases h
  | contacts rest =>
      cases rest with
      | nil => exact fun h => by cases h
      | cons c cs => exact fun h => startWatch_ne_closing _ _ (Option.some.inj h)
  | moving i peer date =>
      simp only [Session.goOn]
      split
      · exact fun h => by cases h
      · split <;> exact fun h => by cases h
  | opening peer pending => cases ok <;> exact fun h => by cases h
  | joining peer date wasWatched => cases ok <;> exact fun h => by cases h
  | realigning i peer date => cases ok <;> exact fun h => by cases h
  | leaving i => exact fun h => by cases h
  | watching peer rest => exact fun h => by cases h
  | closing => exact fun h => by cases h

/-- A call goes on as another one. -/
theorem Tabled.resume (h : a.Tabled) (k : Nat) (now wall : Time) (ok : Bool)
    (hclear : ok = true → ∀ peer rest, a.session.calls[k]? = some (.watching peer rest) →
      a.session.closed = false ∧ a.session.presence.has peer = false ∧ peer ∉ a.unwatched) :
    Tabled (⟨a.session.resume C k now wall ok, a.unwatched⟩ : Asked P T) := by
  unfold Session.resume
  split
  · exact h
  case h_2 c hcall =>
    have hin : c ∈ a.session.calls := List.mem_of_getElem? hcall
    have herased : Tabled (⟨{ a.session with calls := a.session.calls.eraseIdx k }, a.unwatched⟩ : Asked P T) :=
      h.keeps ⟨rfl, rfl, rfl, Or.imp_right List.mem_of_mem_eraseIdx⟩ (List.Subset.refl _)
    have hgone := herased.goOn (C := C) now wall ok c (fun hc => h.ends (.inr (hc ▸ hin)))
      fun hok peer rest hc => hclear hok peer rest (hc ▸ hcall)
    refine hgone.keeps ⟨rfl, rfl, rfl, Or.imp_right fun hnext => ?_⟩ (List.Subset.refl _)
    rcases List.mem_append.mp hnext with hin | hin
    · exact hin
    · exact absurd (Option.mem_toList.mp hin) (next_ne_closing now wall ok c)

theorem Tabled.step (h : a.Tabled) (e : Event P) (hclear : a.Clear e) : (a.step C e).Tabled := by
  have hmono : ∀ contacts : List P, a.unwatched.filter (· ∉ contacts) ⊆ a.unwatched := fun _ => List.filter_sublist.subset
  by_cases hdown : a.session.down = true
  · have hclosed := h.ends (.inl hdown)
    have hsession : (a.step C e).session = a.session := by rw [Asked.step, Session.step, if_pos hdown]
    refine ⟨fun peer i => ?_, fun peer _ => ?_, fun _ => ?_⟩
    · rw [hsession]
      exact h.table peer i
    · rw [hsession]
      exact h.gone peer (.inr hclosed)
    · rw [hsession]
      exact hclosed
  · have hact : (a.step C e).session = a.session.act C e := by rw [Asked.step, Session.step, if_neg hdown]
    have hkeep : Keeps a.session (a.session.act C e) → (a.step C e).unwatched ⊆ a.unwatched → (a.step C e).Tabled := by
      intro hk hu
      refine h.keeps ?_ hu
      rwa [hact]
    cases e with
    | open' peer => exact hkeep ⟨rfl, rfl, rfl, ends_call (fun h => by cases h) rfl rfl⟩ (List.Subset.refl _)
    | opened i => exact hkeep (keeps_opened i) (List.Subset.refl _)
    | leave i => exact hkeep (keeps_leave i) (List.Subset.refl _)
    | watchContacts contacts => exact hkeep ⟨rfl, rfl, rfl, ends_call (fun h => by cases h) rfl rfl⟩ (hmono contacts)
    | unwatch peer =>
        have hw := h.stopWatch peer
        rw [Asked.step, Session.step, if_neg hdown]
        exact hw
    | realign peer => exact hkeep (keeps_realign peer none) (List.Subset.refl _)
    | handshake i date wall => exact hkeep (keeps_handshake i date wall) (List.Subset.refl _)
    | sync i now => exact hkeep (keeps_sync i now) (List.Subset.refl _)
    | derived i ok => exact hkeep (keeps_derived i ok) (List.Subset.refl _)
    | resume k now wall ok =>
        have hr := h.resume (C := C) k now wall ok fun hok peer rest hcall => by
          subst hok
          exact hclear (by simpa using hdown) peer rest hcall
        rw [Asked.step, Session.step, if_neg hdown]
        exact hr
    | close =>
        have hc := h.shutdown
        rw [Asked.step, Session.step, if_neg hdown]
        exact hc

/-- A watch that comes otherwise is one too many. -/
theorem Tabled.clear (h : a.Tabled) (e : Event P) (hs : (a.step C e).Single) : a.Clear e := by
  cases e with
  | resume k now wall ok =>
      cases ok with
      | false => trivial
      | true =>
          intro hdown peer rest hcall
          have hsession : (a.step C (.resume k now wall true)).session =
              { { a.session with calls := a.session.calls.eraseIdx k }.addWatch peer with
                calls := a.session.calls.eraseIdx k ++ [.contacts rest] } := by
            simp only [Asked.step, Session.step, hdown, Bool.false_eq_true, if_false, Session.act, Session.resume, hcall]
            rfl
          have hlive : ∀ q j, a.session.Live q j ∨ q = peer ∧ j = a.session.watches.length →
              (a.step C (.resume k now wall true)).session.Live q j := by
            intro q j hq
            rw [hsession]
            exact (live_addWatch (s := a.session)).mpr hq
          have hnew := hlive peer _ (.inr ⟨rfl, rfl⟩)
          have hclosed : (a.step C (.resume k now wall true)).session.closed = a.session.closed := by rw [hsession]; rfl
          refine ⟨?_, ?_, ?_⟩
          · rw [← Bool.not_eq_true]
            intro hc
            exact hs.gone peer _ (.inr (hclosed.trans hc)) hnew
          · cases hget : a.session.presence.get peer with
            | none => exact OrdMap.has_of_get_none hget
            | some i =>
                have hi := (h.table peer i).mp hget
                have heq := hs.one peer i _ (hlive peer i (.inl hi)) hnew
                obtain ⟨w, hw, -⟩ := hi
                have hlt := (List.getElem?_eq_some_iff.mp hw).1
                omega
          · intro hin
            exact hs.gone peer _ (.inl hin) hnew
  | _ => trivial


end Asked

/-- Along a run every state has at most one live watch of a contact, and none that should be gone, exactly when every
watch comes where the session is open, the contact has none, and was not unwatched meanwhile. -/
theorem watched_once (C : Pairs P T) (es : List (Event P)) :
    (∀ ds, ds <+: es → (Asked.run C ds).Single) ↔ Admits (Asked.step C) Asked.Clear Asked.start es :=
  Admits.iff_good (I := Asked.Tabled) (fun _ h => h.single) (fun _ e h hok => h.step e hok) (fun _ e h hs => h.clear e hs)
    .start es

/-- A contact is asked for, watched, and unwatched. -/
theorem watched_sample : ∀ ds, ds <+: [.watchContacts [0], .resume 0 noon noon true, .resume 0 noon noon true, .unwatch 0] →
    (Asked.run samplePairs ds).Single := by
  refine (watched_once samplePairs _).mpr ⟨trivial, ?_, ?_, trivial, trivial⟩
  · intro _ peer rest hcall
    cases hcall
  · intro _ peer rest hcall
    have hwatching : some (Call.watching 0 []) = some (.watching peer rest) := hcall
    cases hwatching
    exact ⟨rfl, rfl, List.not_mem_nil⟩

/-! ## Calls that overlap -/

theorem announces_of {s : Session Nat (Nat × Date)} {i : Nat} {d : Date} (hstand : s.stand[i]? = some (0, false))
    (hholds : s.holds (.day i d) = some (0, d)) (hsub : (0, d) ∈ s.subscribed) : s.Announces 0 i :=
  ⟨live_iff.mpr hstand, d, (0, d), hholds, hsub⟩

def overlapping : List (Event Nat) :=
  [.watchContacts [0], .watchContacts [0], .resume 0 noon noon true, .resume 0 noon noon true, .resume 0 noon noon true,
    .resume 0 noon noon true, .sync 0 noon, .derived 0 true, .sync 1 noon, .derived 1 true]

def unwatchedMeanwhile : List (Event Nat) :=
  [.watchContacts [0], .resume 0 noon noon true, .unwatch 0, .resume 0 noon noon true, .sync 0 noon, .derived 0 true]

def closedMeanwhile : List (Event Nat) :=
  [.watchContacts [0], .resume 0 noon noon true, .close, .resume 0 noon noon true, .sync 0 noon, .derived 0 true,
    .resume 0 noon noon true]

/-- Two watches announce one contact; one announces a contact that was unwatched; one outlives the session. -/
theorem watches_overlap :
    (¬ ∀ es peer i j, (Asked.run samplePairs es).session.Announces peer i →
        (Asked.run samplePairs es).session.Announces peer j → i = j) ∧
      (¬ ∀ es peer i, peer ∈ (Asked.run samplePairs es).unwatched → ¬ (Asked.run samplePairs es).session.Announces peer i) ∧
      ¬ ∀ es peer i, (Asked.run samplePairs es).session.down = true →
        ¬ (Asked.run samplePairs es).session.Announces peer i := by
  refine ⟨fun h => ?_, fun h => ?_, fun h => ?_⟩
  · have hsame := h overlapping 0 0 1
      (announces_of (d := 0) (by decide) (by decide) (by decide))
      (announces_of (d := 0) (by decide) (by decide) (by decide))
    cases hsame
  · exact h unwatchedMeanwhile 0 0 (by decide)
      (announces_of (d := 0) (by decide) (by decide) (by decide))
  · exact h closedMeanwhile 0 0 (by decide)
      (announces_of (d := 0) (by decide) (by decide) (by decide))

end Session

end EncedoChat.Presence
