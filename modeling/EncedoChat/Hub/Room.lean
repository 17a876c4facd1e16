import EncedoChat.Presence.Watched

/-!
# An open that fails

`open` of `lib/core.ts` and `Hub.room` of `cli/hub.ts`: what an attempt that fails at one of its awaits leaves of the
contact's watch, its topics and its conversation, and what the hub keeps of the attempt.
-/

namespace EncedoChat.Presence

/-- The contact of an `open` at its await. -/
def Call.attempt {P : Type} : Call P → Option P
  | .opening peer _ => some peer
  | .joining peer _ _ => some peer
  | _ => none

namespace Session

variable {P T : Type} [DecidableEq P] [DecidableEq T] {C : Pairs P T} {s z : Session P T} {peer : P}

/-- The contact has a light watch, and it is live. -/
def IsWatched (s : Session P T) (peer : P) : Prop := ∃ i, s.presence.get peer = some i ∧ s.Live peer i

/-- The topics that are held for the contact's rooms. -/
def heldFor (s : Session P T) (peer : P) : List T :=
  (s.rooms.filter fun r => r.peer = peer && r.counted).map Room.topic

/-- What is the contact's own: its watch, its topics, its conversation. -/
structure Spares' (peer : P) (s z : Session P T) : Prop where
  presence : z.presence.get peer = s.presence.get peer
  live : ∀ i, z.Live peer i ↔ s.Live peer i
  topics : z.heldFor peer = s.heldFor peer
  convs : z.openConvs.get peer = s.openConvs.get peer

variable (C) in
/-- Whatever happens, but to the contact's watch, topics and conversation. -/
def Meanwhile (peer : P) : Session P T → Session P T → Prop :=
  Reach (fun s e => s.step C e) fun s e => Spares' peer s (s.step C e)

/-- Where `open` awaits. -/
inductive Await where
  | offset
  | pairKeys
  | room
  deriving DecidableEq

variable (C) in
/-- `open(peer)` is called, and fails at an await; others go on meanwhile. -/
inductive Fails (peer : P) (s : Session P T) : Await → Session P T → Prop
  | offset {y : Session P T} {k : Nat} {pending : Option (Date × Time)} (now wall : Time) :
      Meanwhile C peer (s.step C (.open' peer)) y → y.down = false → y.calls[k]? = some (.opening peer pending) →
      Fails peer s .offset (y.step C (.resume k now wall false))
  | later {a : Await} {x y : Session P T} {j k : Nat} {pending : Option (Date × Time)} {date : Date} {wasWatched : Bool}
      (now wall now' wall' : Time) : a ≠ .offset →
      Meanwhile C peer (s.step C (.open' peer)) x → x.down = false → x.calls[j]? = some (.opening peer pending) →
      Meanwhile C peer (x.step C (.resume j now wall true)) y → y.down = false →
      y.calls[k]? = some (.joining peer date wasWatched) →
      Fails peer s a (y.step C (.resume k now' wall' false))

/-- A contact that was watched is watched again, and neither a topic nor a conversation is left of the attempt. -/
structure Unbroken (peer : P) (s z : Session P T) : Prop where
  watched : s.IsWatched peer → z.IsWatched peer
  topics : z.heldFor peer = s.heldFor peer
  convs : z.openConvs.get peer = s.openConvs.get peer

namespace Spares'

omit [DecidableEq T] in
theorem refl (peer : P) (s : Session P T) : Spares' peer s s := ⟨rfl, fun _ => Iff.rfl, rfl, rfl⟩

omit [DecidableEq T] in
theorem trans {y : Session P T} (h : Spares' peer s y) (h' : Spares' peer y z) : Spares' peer s z :=
  ⟨h'.presence.trans h.presence, fun i => (h'.live i).trans (h.live i), h'.topics.trans h.topics, h'.convs.trans h.convs⟩

omit [DecidableEq T] in
theorem isWatched_iff (h : Spares' peer s z) : z.IsWatched peer ↔ s.IsWatched peer := by
  simp only [IsWatched, h.presence, h.live]

end Spares'

theorem Meanwhile.spares (h : Meanwhile C peer s z) : Spares' peer s z :=
  h.invariant (.refl peer s) fun _ _ hi hok => hi.trans hok

theorem spares_open (peer : P) (s : Session P T) : Spares' peer s (s.step C (.open' peer)) := by
  unfold step
  split
  · exact .refl peer s
  · exact ⟨rfl, fun _ => Iff.rfl, rfl, rfl⟩

theorem spares_fail {k : Nat} {c : Call P} (hc : s.calls[k]? = some c) (hattempt : c.attempt = some peer) (now wall : Time) :
    Spares' peer s (s.step C (.resume k now wall false)) := by
  unfold step
  split
  · exact .refl peer s
  · rw [act, resume, hc]
    cases c with
    | opening => exact ⟨rfl, fun _ => Iff.rfl, rfl, rfl⟩
    | joining => exact ⟨rfl, fun _ => Iff.rfl, rfl, rfl⟩
    | _ => cases hattempt

theorem handOff_contact (now : Time) : (s.handOff C peer now).presence.get peer = none ∧
    (s.handOff C peer now).rooms = s.rooms ∧ (s.handOff C peer now).openConvs = s.openConvs := by
  unfold handOff
  split
  case h_1 hnone => exact ⟨hnone, rfl, rfl⟩
  case h_2 i _ =>
    refine ⟨OrdMap.get_delete_self _ _, ?_⟩
    cases hw : s.watches[i]? with
    | none => rw [stopRotating_none hw]; exact ⟨rfl, rfl⟩
    | some w => rw [stopRotating_eq hw]; exact ⟨rfl, rfl⟩

theorem retire {k : Nat} {pending : Option (Date × Time)} (hdown : s.down = false)
    (hc : s.calls[k]? = some (.opening peer pending)) (now wall : Time) :
    (s.step C (.resume k now wall true)).presence.get peer = none ∧
      (s.step C (.resume k now wall true)).heldFor peer = s.heldFor peer ∧
      (s.step C (.resume k now wall true)).openConvs.get peer = s.openConvs.get peer := by
  let y : Session P T := { s with calls := s.calls.eraseIdx k }
  have hcontact : (y.handOff C peer now).presence.get peer = none ∧ (y.handOff C peer now).rooms = y.rooms ∧
      (y.handOff C peer now).openConvs = y.openConvs := handOff_contact now
  obtain ⟨hpres, hrooms, hconvs⟩ := hcontact
  rw [step, if_neg (by simp [hdown]), act, resume, hc]
  refine ⟨hpres, ?_, congrArg (OrdMap.get · peer) hconvs⟩
  exact congrArg (fun rooms => (rooms.filter fun r => r.peer = peer && r.counted).map Room.topic) hrooms

/-- What an attempt that failed has broken: a watch that was there, unless it failed before it retired it. -/
theorem fails_iff {a : Await} (h : Fails C peer s a z) : Unbroken peer s z ↔ a = .offset ∨ ¬ s.IsWatched peer := by
  cases h with
  | offset now wall hmean hdown hc =>
      have hall := ((spares_open (C := C) peer s).trans hmean.spares).trans (spares_fail (C := C) hc rfl now wall)
      exact iff_of_true ⟨hall.isWatched_iff.mpr, hall.topics, hall.convs⟩ (.inl rfl)
  | later now wall now' wall' ha hmean hdown hc hmean' hdown' hc' =>
      have hbefore := (spares_open (C := C) peer s).trans hmean.spares
      obtain ⟨hpres, htopics, hconvs⟩ := retire (C := C) hdown hc now wall
      have hafter := hmean'.spares.trans (spares_fail (C := C) hc' rfl now' wall')
      rw [or_iff_right ha]
      constructor
      · rintro hun hwatched
        obtain ⟨i, hi, -⟩ := hun.watched hwatched
        rw [hafter.presence, hpres] at hi
        cases hi
      · intro hnot
        exact ⟨fun hw => absurd hw hnot, (hafter.topics.trans htopics).trans hbefore.topics,
          (hafter.convs.trans hconvs).trans hbefore.convs⟩

end Session

/-! ## The hub -/

/-- The hub: its session, and the contacts of `rooms` with what became of the promise of `open`: has it failed? -/
structure Hub (P T : Type) where
  session : Session P T
  rooms : OrdMap P Bool

inductive HubEvent (P : Type) where
  | room (peer : P)
  /-- what the session does besides; the hub alone opens rooms -/
  | session (e : Event P)

/-- The contact of the attempt that fails at this event. -/
def Session.failing {P T : Type} (s : Session P T) : Event P → Option P
  | .resume k _ _ false => if s.down then none else s.calls[k]?.bind Call.attempt
  | _ => none

namespace Hub

variable {P T : Type} [DecidableEq P] [DecidableEq T] {C : Pairs P T} {h z : Hub P T} {peer : P}

def start : Hub P T := ⟨.start, .empty⟩

variable (C) in
def room (h : Hub P T) (peer : P) : Hub P T :=
  if h.rooms.has peer then h else ⟨h.session.step C (.open' peer), h.rooms.set peer false⟩

/-- The promise of the contact's attempt is rejected. -/
def reject (h : Hub P T) (peer : P) : Hub P T :=
  if h.rooms.has peer then { h with rooms := h.rooms.set peer true } else h

variable (C) in
def step (h : Hub P T) : HubEvent P → Hub P T
  | .room peer => h.room C peer
  | .session (.open' _) => h
  | .session e => { (h.session.failing e).elim h h.reject with session := h.session.step C e }

variable (C) in
/-- `room` for the contact begins an `open`. -/
def Opens (h : Hub P T) (peer : P) : Prop :=
  ∃ pending, (h.room C peer).session.calls = h.session.calls ++ [.opening peer pending]

/-- Every attempt has its promise in `rooms`. -/
def Promised (h : Hub P T) : Prop := ∀ c ∈ h.session.calls, ∀ peer, c.attempt = some peer → h.rooms.has peer = true

end Hub

namespace Session

variable {P T : Type} [DecidableEq P] [DecidableEq T] {C : Pairs P T} {s z : Session P T}

/-- The attempts of the second are attempts of the first. -/
def Attempts (s z : Session P T) : Prop := ∀ c ∈ z.calls, ∀ peer, c.attempt = some peer → ∃ c' ∈ s.calls, c'.attempt = some peer

omit [DecidableEq P] [DecidableEq T] in
theorem attempts_eq (h : z.calls = s.calls) : Attempts s z := fun c hc _ hp => ⟨c, h ▸ hc, hp⟩

omit [DecidableEq P] [DecidableEq T] in
theorem attempts_call {c : Call P} (hc : c.attempt = none) (h : z.calls = s.calls ++ [c]) : Attempts s z := by
  intro c' hc' peer hp
  rw [h, List.mem_append, List.mem_singleton] at hc'
  rcases hc' with hin | rfl
  · exact ⟨c', hin, hp⟩
  · rw [hc] at hp
    cases hp

theorem calls_stopRotating (handed : Option Date) (i : Nat) : (s.stopRotating handed i).calls = s.calls := by
  cases hw : s.watches[i]? with
  | none => rw [stopRotating_none hw]
  | some w => rw [stopRotating_eq hw]

theorem calls_stopAll (ws : List Nat) : (ws.foldl (stopRotating · none) s).calls = s.calls := by
  induction ws generalizing s with
  | nil => rfl
  | cons w ws ih => rw [List.foldl_cons, ih, calls_stopRotating]

theorem calls_syncFrom (i : Nat) (w : Watch P T) (want todo : List Date) : (s.syncFrom i w want todo).calls = s.calls := by
  rcases syncFrom_eq (s := s) i w want todo with ⟨-, heq⟩ | ⟨-, d, ds, heq, -⟩
  · rw [heq, prune_eq]
  · rw [heq]

theorem calls_sync (i : Nat) (now : Time) : (s.sync C i now).calls = s.calls := by
  unfold sync
  split
  · rfl
  · split
    · rfl
    · exact calls_syncFrom ..

theorem calls_derived (i : Nat) (ok : Bool) : (s.derived C i ok).calls = s.calls := by
  unfold derived
  split
  · rfl
  · split
    · rfl
    · split
      · rfl
      · split
        · rfl
        · exact calls_syncFrom ..

theorem calls_stopWatch (peer : P) : (s.stopWatch peer).calls = s.calls := by
  unfold stopWatch
  split
  · rfl
  · exact calls_stopRotating ..

theorem calls_handOff (peer : P) (now : Time) : (s.handOff C peer now).calls = s.calls := by
  unfold handOff
  split
  · rfl
  · exact calls_stopRotating ..

omit [DecidableEq P] in
theorem calls_stopRoom (i : Nat) : (s.stopRoom i).calls = s.calls := by
  unfold stopRoom
  split <;> rfl

omit [DecidableEq P] in
theorem calls_stopRooms (is : List Nat) : (is.foldl stopRoom s).calls = s.calls := by
  induction is generalizing s with
  | nil => rfl
  | cons i is ih => rw [List.foldl_cons, ih, calls_stopRoom]

omit [DecidableEq T] in
theorem attempts_realign (peer : P) (date : Option Date) : Attempts s (s.realign peer date) := by
  unfold realign
  split
  · exact attempts_eq rfl
  · split
    · exact attempts_eq rfl
    · exact attempts_call rfl rfl

theorem attempts_leave (i : Nat) : Attempts s (s.leave i) := by
  unfold leave
  split
  · exact attempts_eq rfl
  · split
    · exact attempts_eq rfl
    · dsimp only
      split
      · exact attempts_call rfl rfl
      · split <;> exact attempts_call rfl rfl

theorem calls_opened (i : Nat) : (s.opened i).calls = s.calls := by
  unfold opened
  split
  · rfl
  · split <;> rfl

theorem attempts_handshake (i : Nat) (date : Date) (wall : Time) : Attempts s (s.handshake i date wall) := by
  unfold handshake
  split
  · exact attempts_eq rfl
  · split
    · exact attempts_eq rfl
    · split
      · exact attempts_realign (s := s) _ _
      · exact attempts_eq rfl

theorem attempts_shutdown : Attempts s s.shutdown := by
  unfold shutdown
  split
  · exact attempts_eq rfl
  · refine attempts_call (c := .closing) rfl ?_
    exact congrArg (· ++ [Call.closing]) (calls_stopAll (s := { s with closed := true }) _)

theorem goOn_attempts (now wall : Time) (ok : Bool) (c : Call P) : (s.goOn C now wall ok c).1.calls = s.calls ∧
    ∀ c' ∈ (s.goOn C now wall ok c).2, ∀ peer, c'.attempt = some peer → c.attempt = some peer := by
  cases c with
  | opening p pending =>
      cases ok with
      | false => exact ⟨rfl, fun c' hc' => by cases hc'⟩
      | true =>
          refine ⟨calls_handOff (C := C) p now, fun c' hc' q hq => ?_⟩
          obtain rfl := Option.some.inj hc'
          exact hq
  | joining p date was => cases ok <;> exact ⟨rfl, fun c' hc' => by cases hc'⟩
  | leaving i =>
      refine ⟨calls_stopRoom i, fun c' hc' q hq => ?_⟩
      obtain rfl := Option.some.inj hc'
      cases hq
  | left i =>
      simp only [goOn]
      split
      · exact ⟨rfl, fun c' hc' => by cases hc'⟩
      · split
        · refine ⟨rfl, fun c' hc' q hq => ?_⟩
          obtain rfl := Option.some.inj hc'
          simp only [startWatch] at hq
          split at hq <;> cases hq
        · exact ⟨rfl, fun c' hc' => by cases hc'⟩
  | contacts rest =>
      cases rest with
      | nil => exact ⟨rfl, fun c' hc' => by cases hc'⟩
      | cons p ps =>
          refine ⟨rfl, fun c' hc' q hq => ?_⟩
          obtain rfl := Option.some.inj hc'
          simp only [startWatch] at hq
          split at hq <;> cases hq
  | watching p rest =>
      refine ⟨by cases ok <;> rfl, fun c' hc' q hq => ?_⟩
      obtain rfl := Option.some.inj hc'
      cases hq
  | realigning i p date =>
      cases ok with
      | false => exact ⟨rfl, fun c' hc' => by cases hc'⟩
      | true =>
          refine ⟨rfl, fun c' hc' q hq => ?_⟩
          obtain rfl := Option.some.inj hc'
          cases hq
  | moving i p date =>
      simp only [goOn]
      split
      · exact ⟨rfl, fun c' hc' => by cases hc'⟩
      · split <;> exact ⟨rfl, fun c' hc' => by cases hc'⟩
  | closing => exact ⟨calls_stopRooms _, fun c' hc' => by cases hc'⟩

theorem attempts_resume (k : Nat) (now wall : Time) (ok : Bool) : Attempts s (s.resume C k now wall ok) := by
  unfold resume
  split
  · exact attempts_eq rfl
  case h_2 c hc =>
    obtain ⟨hcalls, hnext⟩ := goOn_attempts (C := C) (s := { s with calls := s.calls.eraseIdx k }) now wall ok c
    intro c' hc' peer hp
    rcases List.mem_append.mp hc' with hin | hin
    · rw [hcalls] at hin
      exact ⟨c', List.mem_of_mem_eraseIdx hin, hp⟩
    · exact ⟨c, List.mem_of_getElem? hc, hnext c' (Option.mem_toList.mp hin) peer hp⟩

theorem mem_calls_open {c : Call P} {peer : P} (hc : c ∈ (s.step C (.open' peer)).calls) :
    c ∈ s.calls ∨ ∃ pending, c = .opening peer pending := by
  unfold step at hc
  split at hc
  · exact .inl hc
  · rw [act, open', List.mem_append, List.mem_singleton] at hc
    exact hc.imp_right fun heq => ⟨_, heq⟩

theorem attempts_step {e : Event P} (he : ∀ peer, e ≠ .open' peer) : Attempts s (s.step C e) := by
  unfold step
  split
  · exact attempts_eq rfl
  · cases e with
    | open' peer => exact absurd rfl (he peer)
    | opened i => exact attempts_eq (calls_opened i)
    | leave i => exact attempts_leave i
    | watchContacts contacts => exact attempts_call rfl rfl
    | unwatch peer => exact attempts_eq (calls_stopWatch peer)
    | realign peer => exact attempts_realign peer none
    | handshake i date wall => exact attempts_handshake i date wall
    | sync i now => exact attempts_eq (calls_sync i now)
    | derived i ok => exact attempts_eq (calls_derived i ok)
    | resume k now wall ok => exact attempts_resume k now wall ok
    | close => exact attempts_shutdown

end Session

namespace Hub

variable {P T : Type} [DecidableEq P] [DecidableEq T] {C : Pairs P T} {h z : Hub P T} {peer : P}

omit [DecidableEq T] in
theorem has_reject (p : P) : (h.reject p).rooms.has peer = h.rooms.has peer := by
  unfold reject
  split
  case isTrue hp =>
    rw [OrdMap.has_set]
    by_cases heq : peer = p
    · simp [heq, hp]
    · simp [heq]
  · rfl

/-- `room` with a promise does nothing, whatever became of it. -/
theorem room_of_has (hp : h.rooms.has peer = true) : h.room C peer = h := if_pos hp

theorem step_session {e : Event P} (he : ∀ p, e ≠ .open' p) :
    h.step C (.session e) = { (h.session.failing e).elim h h.reject with session := h.session.step C e } := by
  cases e with
  | open' p => exact absurd rfl (he p)
  | _ => rfl

theorem has_step (e : HubEvent P) (hp : h.rooms.has peer = true) : (h.step C e).rooms.has peer = true := by
  rcases e with p | e
  · rw [step, room]
    split
    · exact hp
    · rw [OrdMap.has_set, hp, Bool.or_true]
  · by_cases he : ∃ p, e = .open' p
    · obtain ⟨p, rfl⟩ := he
      exact hp
    · rw [step_session fun p hp => he ⟨p, hp⟩]
      cases hf : h.session.failing e with
      | none => exact hp
      | some p => exact (has_reject p).trans hp

theorem promised_step (e : HubEvent P) (hp : h.Promised) : (h.step C e).Promised := by
  intro c hc peer hattempt
  rcases e with p | e
  · by_cases hroom : h.rooms.has p = true
    · rw [step, room_of_has hroom] at hc ⊢
      exact hp c hc peer hattempt
    · rw [step, room, if_neg hroom] at hc ⊢
      rw [OrdMap.has_set]
      rcases Session.mem_calls_open hc with hin | ⟨pending, rfl⟩
      · rw [hp c hin peer hattempt, Bool.or_true]
      · obtain rfl := Option.some.inj hattempt
        simp
  · by_cases he : ∃ p, e = .open' p
    · obtain ⟨p, rfl⟩ := he
      exact hp c hc peer hattempt
    · have hopen : ∀ p, e ≠ .open' p := fun p hp => he ⟨p, hp⟩
      have hcalls : c ∈ (h.session.step C e).calls := by rwa [step_session hopen] at hc
      obtain ⟨c', hc', hattempt'⟩ := Session.attempts_step hopen c hcalls peer hattempt
      exact has_step _ (hp c' hc' peer hattempt')

theorem rejected_fail (hp : h.Promised) (hdown : h.session.down = false) {k : Nat} {c : Call P}
    (hc : h.session.calls[k]? = some c) (hattempt : c.attempt = some peer) (now wall : Time) :
    (h.step C (.session (.resume k now wall false))).rooms.get peer = some true := by
  have hfailing : h.session.failing (.resume k now wall false) = some peer := by
    simp [Session.failing, hdown, hc, hattempt]
  have hhas := hp c (List.mem_of_getElem? hc) peer hattempt
  rw [step_session fun p hp => (by cases hp), hfailing, Option.elim, reject, if_pos hhas]
  exact OrdMap.get_set_self ..

theorem rejected_step (e : HubEvent P) (hr : h.rooms.get peer = some true) : (h.step C e).rooms.get peer = some true := by
  have hhas := OrdMap.has_of_get hr
  rcases e with p | e
  · by_cases hroom : h.rooms.has p = true
    · rwa [step, room_of_has hroom]
    · rw [step, room, if_neg hroom, OrdMap.get_set_ne, hr]
      rintro rfl
      exact hroom hhas
  · by_cases he : ∃ p, e = .open' p
    · obtain ⟨p, rfl⟩ := he
      exact hr
    · rw [step_session fun p hp => he ⟨p, hp⟩]
      cases h.session.failing e with
      | none => exact hr
      | some p =>
          rw [Option.elim, reject]
          split
          · dsimp only
            rw [OrdMap.get_set, hr, ite_self]
          · exact hr

/-- `room` of a contact whose attempt has failed opens nothing. -/
theorem not_opens (hr : h.rooms.get peer = some true) : ¬ h.Opens C peer := by
  rintro ⟨pending, hcalls⟩
  rw [room_of_has (OrdMap.has_of_get hr)] at hcalls
  have hlength := congrArg List.length hcalls
  rw [List.length_append, List.length_singleton] at hlength
  omega

variable (C) in
/-- An attempt for the contact fails, and what comes after it. -/
inductive Failed (peer : P) : Hub P T → Prop
  | mk {h z : Hub P T} {k : Nat} {c : Call P} (now wall : Time) : Reach (step C) (fun _ _ => True) start h →
      h.session.down = false → h.session.calls[k]? = some c → c.attempt = some peer →
      Reach (step C) (fun _ _ => True) (h.step C (.session (.resume k now wall false))) z → Failed peer z

theorem Failed.rejected (hf : Failed C peer z) : z.rooms.get peer = some true := by
  obtain ⟨now, wall, hreach, hdown, hc, hattempt, hafter⟩ := hf
  have hp : Promised _ := hreach.invariant (fun _ hc => absurd hc List.not_mem_nil) fun _ e hp _ => promised_step e hp
  exact hafter.invariant (I := fun h => h.rooms.get peer = some true) (rejected_fail hp hdown hc hattempt now wall) fun _ e hr _ => rejected_step e hr

end Hub

variable {P T : Type} [DecidableEq P] [DecidableEq T]

/-- An attempt that fails leaves all as it was exactly when it fails at the offset, or the contact was not watched; and
the hub does not try again. -/
theorem open_failed (C : Pairs P T) :
    (∀ peer s z a, Session.Fails C peer s a z → (Session.Unbroken peer s z ↔ a = .offset ∨ ¬ s.IsWatched peer)) ∧
      ∀ peer z, Hub.Failed C peer z → z.rooms.get peer = some true ∧ ¬ z.Opens C peer :=
  ⟨fun _ _ _ _ h => Session.fails_iff h, fun _ _ h => ⟨h.rejected, Hub.not_opens h.rejected⟩⟩

/-! ## A contact that is watched -/

open Session (noon samplePairs)

/-- One contact is watched. -/
def watchOne : List (Event Nat) := [.watchContacts [0], .resume 0 noon noon true, .resume 0 noon noon true]

def watchedOne : Session Nat (Nat × Date) := (Session.Asked.run samplePairs watchOne).session

/-- It is opened, up to its second await. -/
def openOne : List (HubEvent Nat) := watchOne.map .session ++ [.room 0, .session (.resume 1 noon noon true)]

def openedOne : Hub Nat (Nat × Date) := openOne.foldl (Hub.step samplePairs) .start

theorem reach_openedOne : Reach (Hub.step samplePairs) (fun _ _ => True) .start openedOne :=
  Admits.reach .start (.of_forall (fun _ _ => trivial) _ _)

theorem failed_openedOne :
    Hub.Failed samplePairs 0 (openedOne.step samplePairs (.session (.resume 1 noon noon false))) :=
  .mk (c := .joining 0 0 true) noon noon reach_openedOne rfl rfl rfl .start

theorem fails_offset : Session.Fails samplePairs 0 watchedOne .offset
    ((watchedOne.step samplePairs (.open' 0)).step samplePairs (.resume 1 noon noon false)) :=
  .offset noon noon .start rfl rfl

theorem fails_later : Session.Fails samplePairs 0 watchedOne .pairKeys
    (((watchedOne.step samplePairs (.open' 0)).step samplePairs (.resume 1 noon noon true)).step samplePairs
      (.resume 1 noon noon false)) :=
  have hjoining : ((watchedOne.step samplePairs (.open' 0)).step samplePairs (.resume 1 noon noon true)).calls[1]? =
      some (.joining 0 0 true) := rfl
  .later noon noon noon noon (fun h => by cases h) .start rfl rfl .start rfl hjoining

/-- An offset that fails. -/
theorem open_failed_sample :
    Session.Unbroken 0 watchedOne
        ((watchedOne.step samplePairs (.open' 0)).step samplePairs (.resume 1 noon noon false)) ∧
      ¬ (openedOne.step samplePairs (.session (.resume 1 noon noon false))).Opens samplePairs 0 :=
  ⟨((open_failed samplePairs).1 0 _ _ _ fails_offset).mpr (.inl rfl), ((open_failed samplePairs).2 0 _ failed_openedOne).2⟩

/-- The keys of a watched contact fail: its watch is gone. And the hub does not try again. -/
theorem open_failed_unwatched :
    (¬ ∀ es peer a z, Session.Fails samplePairs peer (Session.Asked.run samplePairs es).session a z →
        Session.Unbroken peer (Session.Asked.run samplePairs es).session z) ∧
      ¬ ∀ peer z, Hub.Failed samplePairs peer z → z.Opens samplePairs peer := by
  constructor
  · intro h
    have hwatched : watchedOne.IsWatched 0 := ⟨0, by decide, Session.live_iff.mpr (by decide)⟩
    obtain ⟨i, hi, -⟩ := (h watchOne 0 _ _ fails_later).watched hwatched
    have hnone : (((watchedOne.step samplePairs (.open' 0)).step samplePairs (.resume 1 noon noon true)).step samplePairs
      (.resume 1 noon noon false)).presence.get 0 = none := by decide
    rw [hnone] at hi
    cases hi
  · exact fun h => Hub.not_opens (by decide) (h 0 _ failed_openedOne)

end EncedoChat.Presence
