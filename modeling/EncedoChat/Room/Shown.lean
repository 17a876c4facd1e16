import EncedoChat.Room.Turns

/-!
# What is shown, and what is acknowledged

A room shows a message twice, or acknowledges what it has not shown, only where a stream it had forgotten goes on.
-/

namespace EncedoChat.Room

variable {β : Type}

namespace Pair

open Chat

/-- What holds of two rooms whatever they forget. -/
structure Sound (w : Pair β) : Prop where
  rooms : ∀ x ∈ w.made, x.1 < w.rooms
  seqs : ∀ x ∈ w.made, ∀ y ∈ w.made, x.1 = y.1 → x.2.seq = y.2.seq → x = y
  ids : ∀ x ∈ w.made, ∀ y ∈ w.made, x.2.id = y.2.id → x = y
  nos : ∀ s, (w.seat s).no < w.rooms
  apart : ∀ s s', (w.seat s).no = (w.seat s').no → s = s'
  next : ∀ s, ∀ x ∈ w.made, x.1 = (w.seat s).no → x.2.seq < (w.seat s).room.seq
  holds : ∀ s, (w.seat s).room.Holds (fun e => ((w.seat s).no, e) ∈ w.made)
  wire : ∀ x ∈ w.wire, (x.2.room, x.2.env) ∈ w.made
  opened : ∀ s q f, .opened q f ∈ (w.seat s).log → (f.room, f.env) ∈ w.made
  shown : ∀ s q e late, .onMessage q e late ∈ (w.seat s).log → ∃ q' f, .opened q' f ∈ (w.seat s).log ∧ f.env = e
  seen : ∀ s, (w.seat s).room.Seen (w.seat s).log

theorem Sound.start (selfA selfB : PeerId) : Sound (start selfA selfB : Pair β) where
  rooms := fun _ h => nomatch h
  seqs := fun _ h => nomatch h
  ids := fun _ h => nomatch h
  nos := fun s => by cases s <;> simp [Pair.start]
  apart := fun s s' h => by cases s <;> cases s' <;> first | rfl | cases h
  next := fun _ _ h => nomatch h
  holds := fun s => by cases s <;> exact .join _
  wire := fun _ h => nomatch h
  opened := fun s _ _ h => by cases s <;> cases h
  shown := fun s _ _ _ h => by cases s <;> cases h
  seen := fun s p n => by cases s <;> simp [Pair.start, Chat.join, remembered]

variable {w : Pair β} {s : Side} {r : Chat β × List (Call β)}

theorem mem_turned_made {x : Nat × Envelope β} :
    x ∈ (w.turned s r).made ↔ x ∈ w.made ∨ x.1 = (w.seat s).no ∧ x.2 ∈ built r.2 := by
  rw [turned, List.mem_append, List.mem_map]
  constructor
  · rintro (h | ⟨e, he, rfl⟩)
    · exact .inl h
    · exact .inr ⟨rfl, he⟩
  · rintro (h | ⟨hno, he⟩)
    · exact .inl h
    · exact .inr ⟨x.2, he, by rw [← hno]⟩

@[simp] theorem turned_seat_self : (w.turned s r).seat s = ⟨r.1, (w.seat s).no, (w.seat s).log ++ r.2⟩ := if_pos rfl

theorem turned_seat_ne {s' : Side} (h : s' ≠ s) : (w.turned s r).seat s' = w.seat s' := if_neg h

theorem turned_no (s' : Side) : ((w.turned s r).seat s').no = (w.seat s').no := by
  by_cases h : s' = s
  · subst h
    rw [turned_seat_self]
  · rw [turned_seat_ne h]

/-- A turn of a room keeps two rooms sound. -/
theorem Sound.turned (H : Sound w) {a : Act β} (h : TurnSpec (w.seat s).room a r)
    (hnew : ∀ id, a.newId = some id → w.NewId id)
    (harrive : ∀ f q accepts draw, a = .arrive f q accepts draw → (f.room, f.env) ∈ w.made) : Sound (w.turned s r) := by
  have hfresh : ∀ e ∈ built r.2, w.NewId e.id := fun e he => hnew _ (h.ids e he)
  have hold : ∀ x ∈ w.made, x ∈ (w.turned s r).made := fun x hx => mem_turned_made.mpr (.inl hx)
  have hlog : ∀ s' call, call ∈ ((w.turned s r).seat s').log →
      call ∈ (w.seat s').log ∨ s' = s ∧ call ∈ r.2 := by
    intro s' call hcall
    by_cases hs : s' = s
    · subst hs
      rw [turned_seat_self] at hcall
      exact (List.mem_append.mp hcall).imp_right fun hc => ⟨rfl, hc⟩
    · rw [turned_seat_ne hs] at hcall
      exact .inl hcall
  have hlogs : ∀ s' call, call ∈ (w.seat s').log → call ∈ ((w.turned s r).seat s').log := by
    intro s' call hcall
    by_cases hs : s' = s
    · subst hs
      rw [turned_seat_self]
      exact List.mem_append_left _ hcall
    · rwa [turned_seat_ne hs]
  constructor
  case rooms =>
    intro x hx
    obtain hx | ⟨hno, -⟩ := mem_turned_made.mp hx
    · exact H.rooms x hx
    · exact hno ▸ H.nos s
  case seqs =>
    intro x hx y hy hno hseq
    obtain hx | ⟨hxno, hxb⟩ := mem_turned_made.mp hx <;> obtain hy | ⟨hyno, hyb⟩ := mem_turned_made.mp hy
    · exact H.seqs x hx y hy hno hseq
    · have hlt := H.next s x hx (hno.trans hyno)
      have hnum := h.builds.numbered _ hyb
      omega
    · have hlt := H.next s y hy (hno.symm.trans hxno)
      have hnum := h.builds.numbered _ hxb
      omega
    · exact Prod.ext hno (h.builds.unique hxb hyb)
  case ids =>
    intro x hx y hy hid
    obtain hx | ⟨hxno, hxb⟩ := mem_turned_made.mp hx <;> obtain hy | ⟨hyno, hyb⟩ := mem_turned_made.mp hy
    · exact H.ids x hx y hy hid
    · exact absurd hid (hfresh _ hyb x hx)
    · exact absurd hid.symm (hfresh _ hxb y hy)
    · exact Prod.ext (hxno.trans hyno.symm) (h.builds.unique hxb hyb)
  case nos =>
    intro s'
    rw [turned_no]
    exact H.nos s'
  case apart =>
    intro s' s'' hno
    rw [turned_no, turned_no] at hno
    exact H.apart s' s'' hno
  case next =>
    intro s' x hx hno
    rw [turned_no] at hno
    by_cases hs : s' = s
    · subst hs
      rw [turned_seat_self]
      obtain hx | ⟨-, hxb⟩ := mem_turned_made.mp hx
      · have hlt := H.next s' x hx hno
        have hseq := h.builds.seq
        exact Nat.lt_of_lt_of_le hlt (by rw [hseq]; exact Nat.le_add_right _ _)
      · exact h.builds.seq_lt hxb
    · rw [turned_seat_ne hs]
      obtain hx | ⟨hxno, -⟩ := mem_turned_made.mp hx
      · exact H.next s' x hx hno
      · exact absurd (H.apart s' s (hno.symm.trans hxno)) hs
  case holds =>
    intro s'
    by_cases hs : s' = s
    · subst hs
      rw [turned_seat_self]
      apply h.builds.holds
      · exact (H.holds s').mono fun e he => hold _ he
      · exact fun e he => mem_turned_made.mpr (.inr ⟨rfl, he⟩)
    · rw [turned_seat_ne hs]
      exact (H.holds s').mono fun e he => hold _ he
  case wire => exact fun x hx => hold _ (H.wire x hx)
  case opened =>
    intro s' q f hf
    obtain hf | ⟨-, hf⟩ := hlog s' _ hf
    · exact hold _ (H.opened s' q f hf)
    · obtain ⟨accepts, draw, ha⟩ := h.opened q f hf
      exact hold _ (harrive f q accepts draw ha)
  case shown =>
    intro s' q e late he
    obtain hwas | ⟨hs, hcall⟩ := hlog s' _ he
    · obtain ⟨q', f, hf, hfe⟩ := H.shown s' q e late hwas
      exact ⟨q', f, hlogs s' _ hf, hfe⟩
    · subst hs
      obtain ⟨q', f, hf, hfe, -⟩ := h.shown q e late hcall
      refine ⟨q', f, ?_, hfe⟩
      rw [turned_seat_self]
      exact List.mem_append_right _ hf
  case seen =>
    intro s'
    by_cases hs : s' = s
    · subst hs
      rw [turned_seat_self]
      exact h.seen _ (H.seen s')
    · rw [turned_seat_ne hs]
      exact H.seen s'

/-- A copy is sealed. -/
theorem Sound.sealed (H : Sound w) {env : Envelope β} (n : SessionId) (h : env ∈ (w.seat s).room.sealing) :
    Sound { w with wire := w.wire ++ [(s, ⟨n, env, (w.seat s).no⟩)] } :=
  { H with
    wire := fun x hx => by
      rcases List.mem_append.mp hx with hx | hx
      · exact H.wire x hx
      · cases List.mem_singleton.mp hx
        exact (H.holds s).sealing env h }

@[simp] theorem reopened_seat_self : (w.reopened s).seat s = ⟨.join (w.seat s).room.self, w.rooms, []⟩ := if_pos rfl

theorem reopened_seat_ne {s' : Side} (h : s' ≠ s) : (w.reopened s).seat s' = w.seat s' := if_neg h

theorem mem_reopened_log {s' : Side} {call : Call β} (h : call ∈ ((w.reopened s).seat s').log) :
    s' ≠ s ∧ call ∈ (w.seat s').log := by
  by_cases hs : s' = s
  · subst hs
    rw [reopened_seat_self] at h
    cases h
  · rw [reopened_seat_ne hs] at h
    exact ⟨hs, h⟩

theorem Sound.reopened (H : Sound w) (s : Side) : Sound (w.reopened s) := by
  constructor
  case rooms => exact fun x hx => Nat.lt_succ_of_lt (H.rooms x hx)
  case seqs => exact H.seqs
  case ids => exact H.ids
  case nos =>
    intro s'
    by_cases hs : s' = s
    · subst hs
      rw [reopened_seat_self]
      exact Nat.lt_succ_self _
    · rw [reopened_seat_ne hs]
      exact Nat.lt_succ_of_lt (H.nos s')
  case apart =>
    intro s' s'' hno
    by_cases hs : s' = s <;> by_cases hs' : s'' = s
    · exact hs.trans hs'.symm
    · subst hs
      rw [reopened_seat_self, reopened_seat_ne hs'] at hno
      exact absurd hno.symm (Nat.ne_of_lt (H.nos s''))
    · subst hs'
      rw [reopened_seat_self, reopened_seat_ne hs] at hno
      exact absurd hno (Nat.ne_of_lt (H.nos s'))
    · rw [reopened_seat_ne hs, reopened_seat_ne hs'] at hno
      exact H.apart s' s'' hno
  case next =>
    intro s' x hx hno
    by_cases hs : s' = s
    · subst hs
      rw [reopened_seat_self] at hno
      exact absurd hno (Nat.ne_of_lt (H.rooms x hx))
    · rw [reopened_seat_ne hs] at hno ⊢
      exact H.next s' x hx hno
  case holds =>
    intro s'
    by_cases hs : s' = s
    · subst hs
      rw [reopened_seat_self]
      exact .join _
    · rw [reopened_seat_ne hs]
      exact H.holds s'
  case wire => exact H.wire
  case opened => exact fun s' q f hf => H.opened s' q f (mem_reopened_log hf).2
  case shown =>
    intro s' q e late he
    obtain ⟨hs, he⟩ := mem_reopened_log he
    rw [reopened_seat_ne hs]
    exact H.shown s' q e late he
  case seen =>
    intro s'
    by_cases hs : s' = s
    · subst hs
      rw [reopened_seat_self]
      intro p n
      simp [Chat.join, remembered]
    · rw [reopened_seat_ne hs]
      exact H.seen s'

theorem act_turned (S : Settings) (w : Pair β) (m : Move β) (hseal : ∀ env n, m.act ≠ .sealCopy env n)
    (hreopen : m.act ≠ .reopen) :
    w.act S m = w.turned m.side ((w.seat m.side).room.turn S m.now m.direct m.act) := by
  rw [act]
  cases ha : m.act with
  | sealCopy env n => exact absurd ha (hseal env n)
  | reopen => exact absurd ha hreopen
  | _ => rfl

/-- What an action does to a log: it starts again, it stays, or the turn of its own room is added. -/
theorem log_act (S : Settings) (w : Pair β) (m : Move β) (s : Side) :
    ((w.act S m).seat s).log = [] ∨ ((w.act S m).seat s).log = (w.seat s).log ∨
      s = m.side ∧ ((w.act S m).seat s).log =
        (w.seat s).log ++ ((w.seat m.side).room.turn S m.now m.direct m.act).2 := by
  by_cases hseal : ∃ env n, m.act = .sealCopy env n
  · obtain ⟨env, n, ha⟩ := hseal
    rw [Pair.act, ha]
    exact .inr (.inl rfl)
  by_cases hreopen : m.act = .reopen
  · rw [Pair.act, hreopen]
    by_cases hs : s = m.side
    · subst hs
      exact .inl (by simp)
    · exact .inr (.inl (by rw [reopened_seat_ne hs]))
  rw [act_turned S w m (fun env n he => hseal ⟨env, n, he⟩) hreopen]
  by_cases hs : s = m.side
  · subst hs
    exact .inr (.inr ⟨rfl, by rw [turned_seat_self]⟩)
  · exact .inr (.inl (by rw [turned_seat_ne hs]))

/-- What arrives was built. -/
theorem Sound.arriving (H : Sound w) {m : Move β} (h : w.CanHappen m) {f : Frame β} {p : PeerId} {accepts : Bool}
    {draw : AckDraw β} (ha : m.act = .arrive f p accepts draw) : (f.room, f.env) ∈ w.made := by
  have hkind := h.2.2
  rw [Available, ha] at hkind
  exact H.wire _ hkind

theorem Sound.act (S : Settings) (H : Sound w) {m : Move β} (h : w.CanHappen m) : Sound (w.act S m) := by
  obtain ⟨hformed, hnew, hkind⟩ := h
  by_cases hseal : ∃ env n, m.act = .sealCopy env n
  · obtain ⟨env, n, ha⟩ := hseal
    rw [Available, ha] at hkind
    rw [Pair.act, ha]
    exact H.sealed n hkind.1
  by_cases hreopen : m.act = .reopen
  · rw [Pair.act, hreopen]
    exact H.reopened m.side
  rw [act_turned S w m (fun env n he => hseal ⟨env, n, he⟩) hreopen]
  apply H.turned (turnSpec S _ m.now m.direct hformed) hnew
  exact fun f q accepts draw ha => H.arriving ⟨hformed, hnew, hkind⟩ ha

/-! ## Messages shown once -/

/-- A frame that opens and is dispatched. -/
def opens (w : Pair β) (m : Move β) (f : Frame β) (p : PeerId) (accepts : Bool) : Prop :=
  ((w.seat m.side).room.openSealed f p accepts m.now).isSome = true ∧ p ≠ (w.seat m.side).room.self

/-- A message that was shown opens again only under a PeerId it was opened under since that stream was forgotten. -/
def NoLostStream (w : Pair β) (m : Move β) : Prop :=
  ∀ f p accepts draw, m.act = .arrive f p accepts draw → w.opens m f p accepts →
    (∃ q late, .onMessage q f.env late ∈ (w.seat m.side).log) →
      ∃ g ∈ remembered p (w.seat m.side).log, g.env = f.env

def ShownOnce (w : Pair β) : Prop := ∀ s id, (w.seat s).log.countP (shows id) ≤ 1

theorem shows_mem {log : List (Call β)} {id : MsgId} (h : 0 < log.countP (shows id)) :
    ∃ q e late, .onMessage q e late ∈ log ∧ e.id = id := by
  obtain ⟨call, hcall, hs⟩ := List.countP_pos_iff.mp h
  cases call with
  | onMessage q e late => exact ⟨q, e, late, hcall, of_decide_eq_true hs⟩
  | _ => cases hs

theorem opens_of_opened (S : Settings) {m : Move β} {f : Frame β} {p : PeerId} {accepts : Bool} {draw : AckDraw β}
    (ha : m.act = .arrive f p accepts draw)
    (h : .opened p f ∈ ((w.seat m.side).room.turn S m.now m.direct m.act).2) : w.opens m f p accepts := by
  rw [ha, Chat.turn, processSealed] at h
  cases ho : (w.seat m.side).room.openSealed f p accepts m.now with
  | none => simp [ho] at h
  | some env =>
      simp only [ho] at h
      refine ⟨by simp [ho], ?_⟩
      intro hself
      simp [hself] at h

/-- A turn that shows a message shows one that was not shown before. -/
theorem shown_new (S : Settings) (H : Sound w) {m : Move β} (hcan : w.CanHappen m) (hstream : w.NoLostStream m)
    {id : MsgId}
    (h : 0 < ((w.seat m.side).room.turn S m.now m.direct m.act).2.countP (shows id)) :
    (w.seat m.side).log.countP (shows id) = 0 := by
  have T := turnSpec S (w.seat m.side).room m.now m.direct hcan.1
  obtain ⟨q, e, late, hcall, rfl⟩ := shows_mem h
  obtain ⟨p, f, hopened, rfl, hnew, hded⟩ := T.shown q e late hcall
  obtain ⟨accepts, draw, ha⟩ := T.opened p f hopened
  have hopens := opens_of_opened S ha hopened
  by_contra hpos
  obtain ⟨q', e', late', hold, hid⟩ := shows_mem (Nat.pos_of_ne_zero hpos)
  -- ids are unique, so the message shown before is the envelope that arrives
  have hmade := H.arriving hcan ha
  obtain ⟨p', f', hopened', rfl⟩ := H.shown m.side q' e' late' hold
  have hsame : (f'.room, f'.env) = (f.room, f.env) := H.ids _ (H.opened m.side p' f' hopened') _ hmade hid
  have henv : f'.env = f.env := congrArg Prod.snd hsame
  obtain ⟨g, hg, hgenv⟩ := hstream f p accepts draw ha hopens ⟨q', late', henv ▸ hold⟩
  exact hnew ((H.seen m.side p f.env.seq).mpr ⟨g, hg, hgenv ▸ hded, hgenv ▸ rfl⟩)

theorem ShownOnce.act (S : Settings) (H : Sound w) (h : ShownOnce w) {m : Move β} (hcan : w.CanHappen m)
    (hstream : w.NoLostStream m) : ShownOnce (w.act S m) := by
  intro s id
  obtain hnil | hsame | ⟨rfl, hadd⟩ := log_act S w m s
  · rw [hnil]
    exact Nat.zero_le 1
  · rw [hsame]
    exact h s id
  · rw [hadd, List.countP_append]
    obtain hzero | hpos := Nat.eq_zero_or_pos
      (((w.seat m.side).room.turn S m.now m.direct m.act).2.countP (shows id))
    · rw [hzero]
      exact h m.side id
    · rw [shown_new S H hcan hstream hpos, Nat.zero_add]
      exact (turnSpec S (w.seat m.side).room m.now m.direct hcan.1).once id

/-- In every run in which what was shown opens again only in a stream that still remembers it, every room calls
`onMessage` at most once for an id. -/
theorem shown_once {S : Settings} {selfA selfB : PeerId}
    (h : Reach (Pair.act S) (fun w m => w.CanHappen m ∧ w.NoLostStream m) (Pair.start selfA selfB : Pair β) w) :
    ShownOnce w := by
  have hboth : Sound w ∧ ShownOnce w := by
    apply h.invariant (I := fun w => Sound w ∧ ShownOnce w)
    · refine ⟨.start selfA selfB, ?_⟩
      intro s id
      cases s <;> exact Nat.zero_le 1
    · rintro w m ⟨H, hone⟩ ⟨hcan, hstream⟩
      exact ⟨H.act S hcan, hone.act S H hcan hstream⟩
  exact hboth.2

theorem NoLostStream.of_act {m : Move β} (h : ∀ f p accepts draw, m.act ≠ .arrive f p accepts draw) :
    w.NoLostStream m :=
  fun f p accepts draw ha => absurd ha (h f p accepts draw)

namespace Rekeyed

def env : Envelope Unit := ⟨.msg, [1], 1, ()⟩

/-- Both rooms of a pair take a session. -/
def meet (s : SessionId) (now : Time) : List (Move Unit) :=
  [⟨.a, .install "B" s, now, false⟩, ⟨.b, .install "A" s, now, false⟩]

/-- A copy of a message goes out under a session and comes in. -/
def carry (env : Envelope Unit) (room : Nat) (s : SessionId) (ackId : MsgId) (now : Time) : List (Move Unit) :=
  [⟨.a, .sealCopy env s, now, false⟩, ⟨.b, .arrive ⟨s, env, room⟩ "A" true ⟨ackId, ()⟩, now, false⟩]

/-- A message is shown, its acknowledgement lost, and the pair re-keys before it is sent again. -/
def moves : List (Move Unit) :=
  meet 1 0 ++ [⟨.a, .sendTracked .msg () [1], 0, false⟩] ++ carry env 0 1 [2] 100 ++ meet 2 1000 ++
    [⟨.a, .fire 1, 1500, false⟩] ++ carry env 0 2 [3] 1600

/-- Shown once and never again. -/
def calm : List (Move Unit) := meet 1 0 ++ [⟨.a, .sendTracked .msg () [1], 0, false⟩] ++ carry env 0 1 [2] 100

/-- Where `calm` arrives before its only frame comes in. -/
def before : Pair Unit := (calm.take 4).foldl (Pair.act {}) (Pair.start "A" "B")

theorem before_log : (before.seat .b).log = [.forgot "A"] := by decide

end Rekeyed

/-- Without that, a message is shown twice. -/
theorem shown_twice : ∃ w : Pair Unit,
    Reach (Pair.act {}) Pair.CanHappen (Pair.start "A" "B") w ∧ ¬ ShownOnce w := by
  refine ⟨Rekeyed.moves.foldl (Pair.act {}) (Pair.start "A" "B"), Admits.reach .start ?_, ?_⟩
  · decide
  · intro h
    have htwo : (((Rekeyed.moves.foldl (Pair.act {}) (Pair.start "A" "B")).seat .b).log.countP (shows [1])) = 2 := by
      decide
    have hone := h .b [1]
    omega

theorem shown_once_calm : ShownOnce (Rekeyed.calm.foldl (Pair.act {}) (Pair.start "A" "B")) := by
  apply shown_once (S := {})
  apply Admits.reach .start
  refine ⟨⟨by decide, .of_act (by simp)⟩, ⟨by decide, .of_act (by simp)⟩,
    ⟨by decide, .of_act (by simp)⟩, ⟨by decide, .of_act (by simp)⟩, ⟨by decide, ?_⟩, trivial⟩
  rintro f p accepts draw - - ⟨q, late, hshown⟩
  have hlog : .onMessage q f.env late ∈ (Rekeyed.before.seat .b).log := hshown
  rw [Rekeyed.before_log] at hlog
  simp at hlog

/-! ## Acknowledged and shown -/

/-- No frame opens in a stream that has, since it was forgotten, its number from another room of the peer. -/
def OneRoom (w : Pair β) (m : Move β) : Prop :=
  ∀ f p accepts draw, m.act = .arrive f p accepts draw → w.opens m f p accepts → f.env.t.confirmed = true →
    ∀ g ∈ remembered p (w.seat m.side).log, g.env.t.deduped = true → g.env.seq = f.env.seq → g.room = f.room

/-- What a room has acknowledged it has handed on. -/
def AckedShown (w : Pair β) : Prop :=
  ∀ s e ref, .makes e ∈ (w.seat s).log → e.t = .ack ref → ∃ call ∈ (w.seat s).log, hands ref call = true

/-- What a room has opened and acknowledges it has handed on. -/
def OpenedShown (w : Pair β) : Prop :=
  ∀ s q f, .opened q f ∈ (w.seat s).log → f.env.t.confirmed = true →
    ∃ call ∈ (w.seat s).log, hands f.env.id call = true

/-- An acknowledgement is of something the room has opened. -/
def AckedOpened (w : Pair β) : Prop :=
  ∀ s e ref, .makes e ∈ (w.seat s).log → e.t = .ack ref →
    ∃ q f, .opened q f ∈ (w.seat s).log ∧ f.env.id = ref ∧ f.env.t.confirmed = true

/-- What a turn opens, the room has handed on by its end. -/
theorem opened_handed (S : Settings) (H : Sound w) (h : OpenedShown w) {m : Move β} (hcan : w.CanHappen m)
    (hroom : w.OneRoom m) {q : PeerId} {f : Frame β}
    (hf : .opened q f ∈ ((w.seat m.side).room.turn S m.now m.direct m.act).2) (hconf : f.env.t.confirmed = true) :
    ∃ call ∈ (w.seat m.side).log ++ ((w.seat m.side).room.turn S m.now m.direct m.act).2,
      hands f.env.id call = true := by
  have T := turnSpec S (w.seat m.side).room m.now m.direct hcan.1
  by_cases hnew : (q, f.env.seq) ∈ (w.seat m.side).room.seenSeq
  · -- the number is taken by a frame of the same room, hence by the same envelope
    obtain ⟨accepts, draw, ha⟩ := T.opened q f hf
    obtain ⟨g, hg, hded, hseq⟩ := (H.seen m.side q f.env.seq).mp hnew
    have hno := hroom f q accepts draw ha (opens_of_opened S ha hf) hconf g hg hded hseq
    have hgopened := mem_of_remembered hg
    have hmade := H.arriving hcan ha
    have hsame := H.seqs _ (H.opened m.side q g hgopened) _ hmade hno hseq
    have henv : g.env = f.env := congrArg Prod.snd hsame
    obtain ⟨call, hcall, hh⟩ := h m.side q g hgopened (henv ▸ hconf)
    exact ⟨call, List.mem_append_left _ hcall, henv ▸ hh⟩
  · obtain ⟨call, hcall, hh⟩ := T.handed q f hf hconf hnew
    exact ⟨call, List.mem_append_right _ hcall, hh⟩

theorem OpenedShown.act (S : Settings) (H : Sound w) (h : OpenedShown w) {m : Move β} (hcan : w.CanHappen m)
    (hroom : w.OneRoom m) : OpenedShown (w.act S m) := by
  intro s q f hf hconf
  obtain hnil | hsame | ⟨rfl, hadd⟩ := log_act S w m s
  · rw [hnil] at hf
    cases hf
  · rw [hsame] at hf ⊢
    exact h s q f hf hconf
  · rw [hadd] at hf ⊢
    rcases List.mem_append.mp hf with hf | hf
    · obtain ⟨call, hcall, hh⟩ := h m.side q f hf hconf
      exact ⟨call, List.mem_append_left _ hcall, hh⟩
    · exact opened_handed S H h hcan hroom hf hconf

theorem AckedOpened.act (S : Settings) (h : AckedOpened w) {m : Move β} (hcan : w.CanHappen m) :
    AckedOpened (w.act S m) := by
  intro s e ref he href
  obtain hnil | hsame | ⟨rfl, hadd⟩ := log_act S w m s
  · rw [hnil] at he
    cases he
  · rw [hsame] at he ⊢
    exact h s e ref he href
  · rw [hadd] at he ⊢
    rcases List.mem_append.mp he with he | he
    · obtain ⟨q, f, hf, hid, hconf⟩ := h m.side e ref he href
      exact ⟨q, f, List.mem_append_left _ hf, hid, hconf⟩
    · have T := turnSpec S (w.seat m.side).room m.now m.direct hcan.1
      obtain ⟨q, f, hf, hid, hconf⟩ := T.acks e (mem_built.mpr he) ref href
      exact ⟨q, f, List.mem_append_right _ hf, hid, hconf⟩

theorem OpenedShown.acked (h : OpenedShown w) (h' : AckedOpened w) : AckedShown w := by
  intro s e ref he href
  obtain ⟨q, f, hf, rfl, hconf⟩ := h' s e ref he href
  exact h s q f hf hconf

/-- In every run in which no stream mixes numbers of two rooms of a peer, every room has handed on what it
acknowledges. -/
theorem acked_shown {S : Settings} {selfA selfB : PeerId}
    (h : Reach (Pair.act S) (fun w m => w.CanHappen m ∧ w.OneRoom m) (Pair.start selfA selfB : Pair β) w) :
    AckedShown w := by
  have hall : Sound w ∧ OpenedShown w ∧ AckedOpened w := by
    apply h.invariant (I := fun w => Sound w ∧ OpenedShown w ∧ AckedOpened w)
    · refine ⟨.start selfA selfB, ?_, ?_⟩
      · intro s q f hf
        cases s <;> cases hf
      · intro s e ref he
        cases s <;> cases he
    · rintro w m ⟨H, hopened, hacked⟩ ⟨hcan, hroom⟩
      exact ⟨H.act S hcan, hopened.act S H hcan hroom, hacked.act S hcan⟩
  exact hall.2.1.acked hall.2.2

namespace Rekeyed

/-- The message of the peer's next room, under the number its first message had. -/
def next : Envelope Unit := ⟨.msg, [4], 1, ()⟩

/-- The peer opens its room again; a frame of the old room comes in under the old session, and then the new one's. -/
def reopenedMoves : List (Move Unit) :=
  meet 1 0 ++ [⟨.a, .sendTracked .msg () [1], 0, false⟩, ⟨.a, .sealCopy env 1, 0, false⟩, ⟨.a, .reopen, 500, false⟩] ++
    meet 2 1000 ++ [⟨.b, .arrive ⟨1, env, 0⟩ "A" true ⟨[2], ()⟩, 1100, false⟩,
      ⟨.a, .sendTracked .msg () [4], 1200, false⟩] ++ carry next 2 2 [5] 1300

end Rekeyed

/-- Otherwise a message is acknowledged that was not shown. -/
theorem acked_unshown : ∃ w : Pair Unit,
    Reach (Pair.act {}) Pair.CanHappen (Pair.start "A" "B") w ∧ ¬ AckedShown w := by
  refine ⟨Rekeyed.reopenedMoves.foldl (Pair.act {}) (Pair.start "A" "B"), Admits.reach .start ?_, ?_⟩
  · decide
  · intro h
    have hnone : ((Rekeyed.reopenedMoves.foldl (Pair.act {}) (Pair.start "A" "B")).seat .b).log.all
        (fun call => !hands [4] call) = true := by
      decide
    have hacked : Call.makes ⟨.ack [4], [5], 2, ()⟩ ∈
        ((Rekeyed.reopenedMoves.foldl (Pair.act {}) (Pair.start "A" "B")).seat .b).log := by
      decide
    obtain ⟨call, hcall, hh⟩ := h .b _ [4] hacked rfl
    have hfalse := List.all_eq_true.mp hnone call hcall
    rw [hh] at hfalse
    cases hfalse

theorem OneRoom.of_act {m : Move β} (h : ∀ f p accepts draw, m.act ≠ .arrive f p accepts draw) : w.OneRoom m :=
  fun f p accepts draw ha => absurd ha (h f p accepts draw)

theorem acked_shown_calm : AckedShown (Rekeyed.calm.foldl (Pair.act {}) (Pair.start "A" "B")) := by
  apply acked_shown (S := {})
  apply Admits.reach .start
  refine ⟨⟨by decide, .of_act (by simp)⟩, ⟨by decide, .of_act (by simp)⟩,
    ⟨by decide, .of_act (by simp)⟩, ⟨by decide, .of_act (by simp)⟩, ⟨by decide, ?_⟩, trivial⟩
  intro f p accepts draw _ _ _ g hg
  have hopened : .opened p g ∈ (Rekeyed.before.seat .b).log := mem_of_remembered hg
  rw [Rekeyed.before_log] at hopened
  simp at hopened

end Pair

end EncedoChat.Room
