import EncedoChat.Lib.Run
import EncedoChat.Room.Outbox

/-!
# The life of one message

What the tables of a room say of a single id, apart from how they say it: which of them hold it, and what has been
reported of it. A turn of the room is one move of every id.
-/

namespace EncedoChat.Room

/-- Which tables hold an id. -/
structure Place where
  pending : Bool
  parked : Bool
  resendable : Bool
  /-- `firstSentAt` -/
  dated : Bool
  deriving DecidableEq

/-- What can be reported of an id; late or not, delivered is delivered. -/
inductive News where
  | delivered
  | undelivered
  | evicted
  deriving DecidableEq

namespace Place

def nowhere : Place := ⟨false, false, false, false⟩

/-- What a turn does with an id that is neither sent nor acknowledged in it. -/
inductive Move : Place → List News → Place → Prop
  | stay (p : Place) : Move p [] p
  | resend (p : Place) : p.resendable = true → p.pending = false →
      Move p [] { p with pending := true, parked := false }
  | unpark (p : Place) : Move p [] { p with pending := p.parked || p.pending, parked := false }
  /-- Its own eviction comes with the bound of the table it is put in. -/
  | giveUp (p : Place) (parked kept : Bool) : p.pending = true →
      Move p (if kept then [.undelivered] else [.evicted, .undelivered]) ⟨false, parked, kept, kept⟩
  /-- Another id pushed this one out. -/
  | trim (p : Place) (parked kept : Bool) : (parked = true → p.parked = true) →
      (kept = false → p.resendable = true) →
      Move p (if kept then [] else [.evicted]) ⟨p.pending, parked, p.resendable && kept, p.dated && kept⟩

end Place

/-- Sent and not acknowledged yet. -/
structure Owed (p : Place) (news : List News) : Prop where
  apart : ¬ (p.parked = true ∧ p.pending = true)
  dated : p.dated = p.resendable
  untold : .delivered ∉ news
  kept : p.pending = true ∨ p.resendable = true ∨ .evicted ∈ news

/-- Acknowledged: held nowhere, and at most the last thing reported says so. -/
structure Settled (p : Place) (news : List News) : Prop where
  gone : p = .nowhere
  last : ∃ before, .delivered ∉ before ∧ (news = before ∨ news = before ++ [.delivered])

namespace Place.Move

variable {p p' : Place} {news more : List News}

/-- A message held nowhere stays so and silent. -/
theorem nowhere (h : Move .nowhere more p') : more = [] ∧ p' = .nowhere := by
  generalize hp : Place.nowhere = p at h
  cases h with
  | stay => subst hp; exact ⟨rfl, rfl⟩
  | resend hr => subst hp; cases hr
  | unpark => subst hp; exact ⟨rfl, rfl⟩
  | giveUp _ _ hpend => subst hp; cases hpend
  | trim parked kept hpark hkept =>
      subst hp
      cases kept with
      | false => cases hkept rfl
      | true =>
          cases parked with
          | false => exact ⟨rfl, rfl⟩
          | true => cases hpark rfl

theorem not_delivered (h : Move p more p') : .delivered ∉ more := by
  cases h with
  | stay | resend | unpark => simp
  | giveUp _ kept | trim _ kept => cases kept <;> simp

theorem owed (h : Move p more p') (H : Owed p news) : Owed p' (news ++ more) := by
  have untold : .delivered ∉ news ++ more := by simp [H.untold, h.not_delivered]
  cases h with
  | stay => simpa using H
  | resend hr => exact ⟨by simp, H.dated, untold, .inl rfl⟩
  | unpark =>
      refine ⟨by simp, H.dated, untold, ?_⟩
      rcases H.kept with h | h | h
      · simp [h]
      · simp [h]
      · simp [h]
  | giveUp parked kept =>
      refine ⟨by simp, rfl, untold, ?_⟩
      cases kept <;> simp
  | trim parked kept hpark hkept =>
      refine ⟨fun h => H.apart ⟨hpark h.1, h.2⟩, by simp [H.dated], untold, ?_⟩
      cases kept with
      | false => simp
      | true => simpa using H.kept

theorem settled (h : Move p more p') (H : Settled p news) : Settled p' (news ++ more) := by
  obtain ⟨rfl, hlast⟩ := H
  obtain ⟨rfl, rfl⟩ := h.nowhere
  exact ⟨rfl, by simpa using hlast⟩

end Place.Move

theorem Owed.sent : Owed { Place.nowhere with pending := true } [] :=
  ⟨by simp [Place.nowhere], rfl, by simp, .inl rfl⟩

/-- An acknowledgement is reported if any table still holds the id. -/
theorem Owed.acked {p : Place} {news : List News} (H : Owed p news) (told : Bool) :
    Settled .nowhere (news ++ if told then [.delivered] else []) := by
  refine ⟨rfl, news, H.untold, ?_⟩
  cases told <;> simp

namespace Settled

variable {p : Place} {news : List News}

theorem acked (H : Settled p news) : Settled p (news ++ []) := by simpa using H

/-- Reported at most once. -/
theorem count_le (H : Settled p news) : news.count .delivered ≤ 1 := by
  obtain ⟨before, hb, rfl | rfl⟩ := H.last
  · simp [List.count_eq_zero.mpr hb]
  · simp [List.count_eq_zero.mpr hb]

/-- Nothing is reported after it. -/
theorem silent (H : Settled p news) {a b : List News} (h : news = a ++ b) (ha : .delivered ∈ a) : b = [] := by
  obtain ⟨before, hb, rfl | rfl⟩ := H.last
  · exact absurd (h ▸ List.mem_append_left b ha) hb
  · rcases List.eq_nil_or_concat b with rfl | ⟨c, x, rfl⟩
    · rfl
    · rw [List.concat_eq_append, ← List.append_assoc] at h
      have hbefore := (List.append_inj' h rfl).1
      exact absurd (hbefore ▸ List.mem_append_left c ha) hb

end Settled

end EncedoChat.Room

/-!
# The books of a room agree

The tables of an outbox over any run of sends, re-sends, timers, acknowledgements and sessions.
-/

namespace EncedoChat.Room

variable {E : Type}

/-- What an effect reports of an id. -/
def Effect.news (id : MsgId) : Effect E → Option News
  | .onDelivered i _ => if i = id then some .delivered else none
  | .onLateDelivered i _ => if i = id then some .delivered else none
  | .onUndelivered i => if i = id then some .undelivered else none
  | .evicted i => if i = id then some .evicted else none
  | .emit _ => none
  | .onStall => none

def about (id : MsgId) (log : List (Effect E)) : List News := log.filterMap (Effect.news id)

@[simp] theorem about_nil (id : MsgId) : about id ([] : List (Effect E)) = [] := rfl

@[simp] theorem about_append (id : MsgId) (log more : List (Effect E)) :
    about id (log ++ more) = about id log ++ about id more :=
  List.filterMap_append

@[simp] theorem about_emit (id : MsgId) (bytes : E) : about id [Effect.emit bytes] = [] := rfl

namespace Outbox

def place (o : Outbox E) (id : MsgId) : Place :=
  ⟨o.pending.has id, o.parked.has id, o.resendable.has id, o.firstSentAt.has id⟩

/-! ## What each function does to the place of an id -/

@[simp] theorem place_clearTimeout (o : Outbox E) (timer : Option Nat) : (o.clearTimeout timer).place = o.place := by
  cases timer <;> rfl

theorem place_setTimer {o : Outbox E} {id : MsgId} {p : Pending E} (h : o.pending.has id = true)
    (due : Due) (delay : Time) : (o.setTimer id p due delay).place = o.place := by
  funext k
  by_cases hk : k = id
  · subst hk
    simp [place, setTimer, h]
  · simp [place, setTimer, hk]

@[simp] theorem place_armRetry (L : Budget) (o : Outbox E) (id : MsgId) (m : Moment) :
    (o.armRetry L id m).place = o.place := by
  rw [armRetry]
  cases hp : o.pending.get id with
  | none => rfl
  | some p =>
      have h := OrdMap.has_of_get hp
      dsimp only
      cases keepTrying L p m with
      | none => exact place_setTimer h .giveUp _
      | some delay => exact place_setTimer h .resend delay

theorem place_put (o : Outbox E) (id k : MsgId) (bytes : E) (sentAt now : Time) :
    (o.put id bytes sentAt now).place k = { o.place k with pending := decide (k = id) || o.pending.has k } := by
  simp [place, put]

theorem place_trackDelivery (L : Budget) (o : Outbox E) (id k : MsgId) (bytes : E) (m : Moment) :
    (o.trackDelivery L id bytes m).place k = { o.place k with pending := decide (k = id) || o.pending.has k } := by
  rw [trackDelivery, place_armRetry, place_put]

/-- A pending entry is replaced by another under the same id. -/
theorem place_set_pending {o : Outbox E} {id : MsgId} (h : o.pending.has id = true) (p : Pending E) :
    ({ o with pending := o.pending.set id p }).place = o.place := by
  funext k
  by_cases hk : k = id
  · subst hk
    simp [place, h]
  · simp [place, hk]

theorem place_resendDue (L : Budget) (o : Outbox E) (t : Timer E) (m : Moment) :
    (o.resendDue L t m).1.place = o.place := by
  rw [resendDue]
  cases hp : o.pending.get t.id with
  | none => rfl
  | some p =>
      rw [place_armRetry]
      exact place_set_pending (OrdMap.has_of_get hp) _

theorem about_onStall (id : MsgId) (c : Prop) [Decidable c] :
    about id (if c then [Effect.onStall] else ([] : List (Effect E))) = [] := by
  split <;> rfl

theorem about_resendDue (L : Budget) (o : Outbox E) (t : Timer E) (m : Moment) (id : MsgId) :
    about id (o.resendDue L t m).2 = [] := by
  rw [resendDue]
  cases o.pending.get t.id with
  | none => rfl
  | some p =>
      rw [about_append, about_emit, List.append_nil]
      exact about_onStall id _

theorem place_flushOne (L : Budget) (m : Moment) (r : Outbox E × List (Effect E)) (id : MsgId) :
    (flushOne L m r id).1.place = r.1.place := by
  rw [flushOne]
  cases hp : r.1.pending.get id with
  | none => rfl
  | some p =>
      have hset : ({ r.1.clearTimeout p.timer with
          pending := (r.1.clearTimeout p.timer).pending.set id { p with tries := 0, since := m.now } }).place =
            (r.1.clearTimeout p.timer).place := by
        apply place_set_pending
        cases p.timer <;> exact OrdMap.has_of_get hp
      rw [place_armRetry, hset, place_clearTimeout]

theorem about_flushOne (L : Budget) (m : Moment) (r : Outbox E × List (Effect E)) (id k : MsgId) :
    about k (flushOne L m r id).2 = about k r.2 := by
  rw [flushOne]
  cases r.1.pending.get id <;> simp

theorem flushAll_still (L : Budget) (o : Outbox E) (m : Moment) :
    (o.flushAll L m).1.place = o.place ∧ ∀ id, about id (o.flushAll L m).2 = [] := by
  have hloop : ∀ (ids : List MsgId) (r : Outbox E × List (Effect E)),
      (ids.foldl (flushOne L m) r).1.place = r.1.place ∧
        ∀ id, about id (ids.foldl (flushOne L m) r).2 = about id r.2 := by
    intro ids
    induction ids with
    | nil => exact fun r => ⟨rfl, fun _ => rfl⟩
    | cons i ids ih =>
        intro r
        obtain ⟨hp, ha⟩ := ih (flushOne L m r i)
        exact ⟨hp.trans (place_flushOne L m r i), fun id => (ha id).trans (about_flushOne L m r i id)⟩
  exact hloop _ _

/-- Entries put back one after another. -/
theorem place_putAll (id : MsgId) (now : Time) (es : List (MsgId × Parked E)) (o : Outbox E) :
    (es.foldl (fun o e => o.put e.1 e.2.bytes e.2.sentAt now) o).place id =
      { o.place id with pending := es.any (fun e => e.1 = id) || o.pending.has id } := by
  induction es generalizing o with
  | nil => simp [place]
  | cons e es ih =>
      have hput := place_put o e.1 id e.2.bytes e.2.sentAt now
      have hp : (o.put e.1 e.2.bytes e.2.sentAt now).pending.has id = (decide (id = e.1) || o.pending.has id) :=
        congrArg Place.pending hput
      rw [List.foldl_cons, ih, hput, hp]
      by_cases he : id = e.1
      · simp [he]
      · simp [he, Ne.symm he]

theorem place_requeue (o : Outbox E) (now : Time) (id : MsgId) :
    (o.requeue now).place id =
      { o.place id with pending := o.parked.has id || o.pending.has id, parked := false } := by
  have hback := place_putAll id now o.parked.entries { o with pending := .empty, parked := .empty }
  simp only [place, OrdMap.any_entries, OrdMap.has_empty, Bool.or_false, Place.mk.injEq] at hback
  obtain ⟨hpending, hparked, hresendable, hdated⟩ := hback
  simp only [requeue, place, OrdMap.has_foldl_new, OrdMap.any_entries, hpending, hparked, hresendable, hdated]

theorem unpark_move (L : Budget) (o : Outbox E) (m : Moment) (id : MsgId) :
    Place.Move (o.place id) (about id (o.unpark L m).2) ((o.unpark L m).1.place id) := by
  obtain ⟨hp, ha⟩ := flushAll_still L (o.requeue m.now) m
  rw [unpark, hp, ha, place_requeue]
  exact .unpark (o.place id)

/-! ## A turn of the room is a move of every id -/

/-- `firstSentAt` is written and deleted with `resendable`; the one that fell out may be `id` itself. -/
theorem keepForResend_spec (o : Outbox E) (id : MsgId) (bytes : E) (sentAt : Time) :
    (o.keepForResend id bytes sentAt).1.pending = o.pending ∧
    (o.keepForResend id bytes sentAt).1.parked = o.parked ∧
    ∃ kept : MsgId → Bool,
      (∀ k, about k (o.keepForResend id bytes sentAt).2 = if kept k then [] else [.evicted]) ∧
      (∀ k, k ≠ id → kept k = false → o.resendable.has k = true) ∧
      ∀ k, (o.keepForResend id bytes sentAt).1.resendable.has k = ((decide (k = id) || o.resendable.has k) && kept k) ∧
        (o.keepForResend id bytes sentAt).1.firstSentAt.has k = ((decide (k = id) || o.firstSentAt.has k) && kept k) := by
  rw [keepForResend]
  cases hhead : (o.resendable.set id bytes).keys.head? with
  | none => exact ⟨rfl, rfl, fun _ => true, by simp⟩
  | some oldest =>
      dsimp only
      split
      · refine ⟨rfl, rfl, fun k => !decide (k = oldest), ?_, ?_, ?_⟩
        · intro k
          by_cases hk : k = oldest
          · simp [about, Effect.news, hk]
          · simp [about, Effect.news, hk, Ne.symm hk]
        · intro k hid hk
          have hmem : oldest ∈ (o.resendable.set id bytes).keys := List.mem_of_head? hhead
          obtain ⟨b, hb⟩ := OrdMap.mem_keys.mp hmem
          have hhas := OrdMap.has_of_get hb
          simp only [Bool.not_eq_false', decide_eq_true_eq] at hk
          subst hk
          simpa [hid] using hhas
        · intro k
          simp [Bool.and_comm]
      · exact ⟨rfl, rfl, fun _ => true, by simp⟩

theorem park_spec (o : Outbox E) (id : MsgId) (bytes : E) (sentAt : Time) :
    (o.park id bytes sentAt).pending = o.pending ∧
    (o.park id bytes sentAt).resendable = o.resendable ∧
    (o.park id bytes sentAt).firstSentAt = o.firstSentAt ∧
    ∀ k, k ≠ id → (o.park id bytes sentAt).parked.has k = true → o.parked.has k = true := by
  rw [park]
  cases (o.parked.set id ⟨bytes, sentAt⟩).keys.head? with
  | none => exact ⟨rfl, rfl, rfl, fun k hk h => by simpa [hk] using h⟩
  | some oldest =>
      dsimp only
      split
      · refine ⟨rfl, rfl, rfl, ?_⟩
        intro k hk h
        simp only [OrdMap.has_delete, OrdMap.has_set, hk, decide_false, Bool.false_or, Bool.and_eq_true] at h
        exact h.2
      · exact ⟨rfl, rfl, rfl, fun k hk h => by simpa [hk] using h⟩

theorem giveUpDue_move (o : Outbox E) (t : Timer E) (m : Moment) (k : MsgId) :
    Place.Move (o.place k) (about k (o.giveUpDue t m).2) ((o.giveUpDue t m).1.place k) := by
  rw [giveUpDue]
  split
  · rename_i hpend
    dsimp only
    -- parked or not, the message leaves `pending` and no other id enters `parked`
    generalize hq : (if m.present = true then ({ o with pending := o.pending.delete t.id } : Outbox E)
      else ({ o with pending := o.pending.delete t.id } : Outbox E).park t.id t.bytes t.sentAt) = q
    have hq' : q.pending = o.pending.delete t.id ∧ q.resendable = o.resendable ∧ q.firstSentAt = o.firstSentAt ∧
        ∀ i, i ≠ t.id → q.parked.has i = true → o.parked.has i = true := by
      subst hq
      split
      · exact ⟨rfl, rfl, rfl, fun _ _ h => h⟩
      · exact park_spec _ _ _ _
    obtain ⟨hqp, hqr, hqd, hqk⟩ := hq'
    obtain ⟨hrp, hrk, kept, hnews, hout, hhas⟩ := keepForResend_spec q t.id t.bytes t.sentAt
    have hplace : (q.keepForResend t.id t.bytes t.sentAt).1.place k =
        ⟨!decide (k = t.id) && o.pending.has k, q.parked.has k,
          (decide (k = t.id) || o.resendable.has k) && kept k, (decide (k = t.id) || o.firstSentAt.has k) && kept k⟩ := by
      rw [place, hrp, hrk, (hhas k).1, (hhas k).2, hqp, hqr, hqd, OrdMap.has_delete]
    rw [hplace, about_append, hnews]
    by_cases hk : k = t.id
    · subst hk
      have h := Place.Move.giveUp (o.place t.id) (q.parked.has t.id) (kept t.id) hpend
      cases hkept : kept t.id <;> simpa [about, Effect.news, hkept] using h
    · have h := Place.Move.trim (o.place k) (q.parked.has k) (kept k) (hqk k hk)
        (fun hfalse => by simpa [place, hqr] using hout k hk hfalse)
      have hne : t.id ≠ k := fun he => hk he.symm
      simpa [about, Effect.news, hk, hne, place] using h
  · exact .stay _

theorem fire_move (L : Budget) (o : Outbox E) (timer : Nat) (m : Moment) (id : MsgId) :
    Place.Move (o.place id) (about id (o.fire L timer m).2) ((o.fire L timer m).1.place id) := by
  rw [fire]
  cases o.timers.get timer with
  | none => exact .stay _
  | some t =>
      dsimp only
      cases hd : t.due with
      | resend =>
          dsimp only
          rw [place_resendDue, about_resendDue]
          exact .stay _
      | giveUp => exact giveUpDue_move { o with timers := o.timers.delete timer } t m id

theorem resend_move (L : Budget) (o : Outbox E) (id : MsgId) (m : Moment) (k : MsgId) :
    Place.Move (o.place k) (about k (o.resend L id m).2) ((o.resend L id m).1.place k) := by
  rw [resend]
  cases hr : o.resendable.get id with
  | none => exact .stay _
  | some bytes =>
      dsimp only
      split
      · exact .stay _
      · rename_i hp
        rw [about_emit, place_trackDelivery]
        by_cases hk : k = id
        · subst hk
          have h := Place.Move.resend (o.place k) (OrdMap.has_of_get hr) (by simpa [place] using hp)
          simpa [place] using h
        · have h := Place.Move.stay (o.place k)
          simpa [place, hk] using h

theorem flushPending_move (L : Budget) (o : Outbox E) (m : Moment) (id : MsgId) :
    Place.Move (o.place id) (about id (o.flushPending L m).2) ((o.flushPending L m).1.place id) := by
  rw [flushPending]
  split
  · exact unpark_move L o m id
  · obtain ⟨hp, ha⟩ := flushAll_still L o m
    rw [hp, ha]
    exact .stay _

theorem onSession_move (L : Budget) (o : Outbox E) (m : Moment) (id : MsgId) :
    Place.Move (o.place id) (about id (o.onSession L m).2) ((o.onSession L m).1.place id) := by
  rw [onSession]
  split
  · exact unpark_move L o m id
  · exact .stay _

theorem clearPending_spec (o : Outbox E) (id : MsgId) :
    (∀ k, (o.clearPending id).pending.has k = (!decide (k = id) && o.pending.has k)) ∧
      (o.clearPending id).parked = o.parked ∧ (o.clearPending id).resendable = o.resendable ∧
      (o.clearPending id).firstSentAt = o.firstSentAt := by
  rw [clearPending]
  cases hp : o.pending.get id with
  | none =>
      refine ⟨?_, rfl, rfl, rfl⟩
      intro k
      by_cases hk : k = id
      · subst hk
        simp [OrdMap.has_of_get_none hp]
      · simp [hk]
  | some p => cases hT : p.timer <;> simp [clearTimeout, hT]

/-- An acknowledgement empties the place of its id, and is reported if there was anything there. -/
theorem ack_spec {o : Outbox E} {ref : MsgId} {news : List News} (H : Owed (o.place ref) news) (now : Time) :
    (o.ack ref now).1.place ref = .nowhere ∧
      ∃ told : Bool, about ref (o.ack ref now).2 = if told then [.delivered] else [] := by
  rw [ack]
  cases hk : o.parked.get ref with
  | some k =>
      have hpend : o.pending.has ref = false := by
        simpa [place, OrdMap.has_of_get hk] using H.apart
      exact ⟨by simp [place, forget, Place.nowhere, hpend], true, by simp [about, Effect.news]⟩
  | none =>
      have hpark := OrdMap.has_of_get_none hk
      cases hp : o.pending.get ref with
      | some p =>
          refine ⟨?_, true, by simp [about, Effect.news]⟩
          obtain ⟨hcp, hck, -, -⟩ := clearPending_spec o ref
          simp [place, forget, Place.nowhere, hcp, hck, hpark]
      | none =>
          have hpend := OrdMap.has_of_get_none hp
          cases hs : o.firstSentAt.get ref with
          | some sentAt =>
              exact ⟨by simp [place, forget, Place.nowhere, hpend, hpark], true, by simp [about, Effect.news]⟩
          | none =>
              have hdate := OrdMap.has_of_get_none hs
              have hkept : o.resendable.has ref = false := H.dated.symm.trans hdate
              exact ⟨by simp [place, Place.nowhere, hpend, hpark, hdate, hkept], false, rfl⟩

theorem ack_other (o : Outbox E) {ref k : MsgId} (now : Time) (hk : k ≠ ref) :
    (o.ack ref now).1.place k = o.place k ∧ about k (o.ack ref now).2 = [] := by
  have hne : ref ≠ k := fun he => hk he.symm
  rw [ack]
  cases o.parked.get ref with
  | some e => exact ⟨by simp [place, forget, hk], by simp [about, Effect.news, hne]⟩
  | none =>
      cases o.pending.get ref with
      | some p =>
          obtain ⟨hcp, hck, hcr, hcd⟩ := clearPending_spec o ref
          exact ⟨by simp [place, forget, hk, hcp, hck, hcr, hcd], by simp [about, Effect.news, hne]⟩
      | none =>
          cases o.firstSentAt.get ref with
          | some sentAt => exact ⟨by simp [place, forget, hk], by simp [about, Effect.news, hne]⟩
          | none => exact ⟨rfl, rfl⟩

/-- For an id held nowhere it does nothing. -/
theorem ack_nowhere {o : Outbox E} {ref : MsgId} (h : o.place ref = .nowhere) (now : Time) : o.ack ref now = (o, []) := by
  simp only [place, Place.nowhere, Place.mk.injEq, OrdMap.has, Option.isSome_eq_false_iff, Option.isNone_iff_eq_none] at h
  simp only [ack, h]

theorem send_spec (L : Budget) (o : Outbox E) (id : MsgId) (bytes : E) (m : Moment) (k : MsgId) :
    (o.send L id bytes m).1.place k = { o.place k with pending := decide (k = id) || o.pending.has k } ∧
      about k (o.send L id bytes m).2 = [] :=
  ⟨place_trackDelivery L o id k bytes m, rfl⟩

end Outbox

/-! ## Runs -/

/-- What can happen to the bookkeeping of a room. -/
inductive Event (E : Type) where
  /-- `sendText`, `sendEdit`, `sendFile` -/
  | send (id : MsgId) (bytes : E)
  | resend (id : MsgId)
  | flushPending
  /-- a session is installed -/
  | onSession
  /-- an acknowledgement arrives, of anything -/
  | ack (ref : MsgId)
  | fire (timer : Nat)

def Outbox.turn (L : Budget) (o : Outbox E) (m : Moment) : Event E → Outbox E × List (Effect E)
  | .send id bytes => o.send L id bytes m
  | .resend id => o.resend L id m
  | .flushPending => o.flushPending L m
  | .onSession => o.onSession L m
  | .ack ref => o.ack ref m.now
  | .fire timer => o.fire L timer m

/-- An outbox with what it has sent, what was acknowledged after that, and all its effects in order. -/
structure Ledger (E : Type) where
  out : Outbox E
  sent : List MsgId
  acked : List MsgId
  log : List (Effect E)

namespace Ledger

def start : Ledger E := ⟨.empty, [], [], []⟩

def noteSent (sent : List MsgId) : Event E → List MsgId
  | .send id _ => id :: sent
  | _ => sent

def noteAcked (sent acked : List MsgId) : Event E → List MsgId
  | .ack ref => if ref ∈ sent then ref :: acked else acked
  | _ => acked

def act (L : Budget) (s : Ledger E) (e : Event E × Moment) : Ledger E :=
  let r := s.out.turn L e.2 e.1
  ⟨r.1, noteSent s.sent e.1, noteAcked s.sent s.acked e.1, s.log ++ r.2⟩

/-- A new message has an id of its own: the ids are random. -/
def NewId (s : Ledger E) (e : Event E × Moment) : Prop :=
  ∀ id bytes, e.1 = .send id bytes → id ∉ s.sent

/-- Where an id stands. -/
inductive Stands (s : Ledger E) (id : MsgId) : Prop
  | unsent : id ∉ s.sent → id ∉ s.acked → s.out.place id = .nowhere → about id s.log = [] → Stands s id
  | owed : id ∈ s.sent → id ∉ s.acked → Owed (s.out.place id) (about id s.log) → Stands s id
  | settled : id ∈ s.sent → id ∈ s.acked → Settled (s.out.place id) (about id s.log) → Stands s id

variable {L : Budget} {s : Ledger E}

/-- A turn that neither sends nor acknowledges the id. -/
theorem Stands.move {id : MsgId} (H : Stands s id) (e : Event E × Moment)
    (hsent : id ∈ (s.act L e).sent ↔ id ∈ s.sent) (hacked : id ∈ (s.act L e).acked ↔ id ∈ s.acked)
    (h : Place.Move (s.out.place id) (about id (s.out.turn L e.2 e.1).2) ((s.out.turn L e.2 e.1).1.place id)) :
    Stands (s.act L e) id := by
  have hlog : about id (s.act L e).log = about id s.log ++ about id (s.out.turn L e.2 e.1).2 := about_append ..
  cases H with
  | unsent hs ha hp hn =>
      rw [hp] at h
      obtain ⟨hnews, hplace⟩ := h.nowhere
      exact .unsent (mt hsent.mp hs) (mt hacked.mp ha) hplace (by rw [hlog, hn, hnews]; rfl)
  | owed hs ha H => exact .owed (hsent.mpr hs) (mt hacked.mp ha) (hlog ▸ h.owed H)
  | settled hs ha H => exact .settled (hsent.mpr hs) (hacked.mpr ha) (hlog ▸ h.settled H)

theorem Stands.send {id : MsgId} {bytes : E} {m : Moment} (H : ∀ k, Stands s k) (hnew : id ∉ s.sent) (k : MsgId) :
    Stands (s.act L (.send id bytes, m)) k := by
  obtain ⟨hplace, hnews⟩ := Outbox.send_spec L s.out id bytes m k
  by_cases hk : k = id
  · subst hk
    cases H k with
    | owed hs | settled hs => exact absurd hs hnew
    | unsent hs ha hp hn =>
        have hsent : k ∈ (s.act L (.send k bytes, m)).sent := List.mem_cons_self ..
        have hacked : k ∉ (s.act L (.send k bytes, m)).acked := ha
        have hlog : about k (s.act L (.send k bytes, m)).log = [] := by
          rw [act, about_append, hn, Outbox.turn, hnews]
          rfl
        have hat : (s.act L (.send k bytes, m)).out.place k = { Place.nowhere with pending := true } := by
          rw [act, Outbox.turn, hplace, hp]
          simp
        exact .owed hsent hacked (by rw [hlog, hat]; exact Owed.sent)
  · apply (H k).move
    · simp [act, noteSent, hk]
    · rfl
    · rw [Outbox.turn, hnews, hplace]
      simpa [hk, Outbox.place] using Place.Move.stay (s.out.place k)

theorem Stands.ack {ref : MsgId} {m : Moment} (H : ∀ k, Stands s k) (k : MsgId) :
    Stands (s.act L (.ack ref, m)) k := by
  by_cases hk : k = ref
  · subst hk
    cases H k with
    | unsent hs ha hp hn =>
        apply (Stands.unsent hs ha hp hn).move
        · rfl
        · simp [act, noteAcked, hs]
        · rw [Outbox.turn, Outbox.ack_nowhere hp]
          exact .stay _
    | owed hs ha H =>
        obtain ⟨hplace, told, hnews⟩ := Outbox.ack_spec H m.now
        have hacked : k ∈ (s.act L (.ack k, m)).acked := by simp [act, noteAcked, hs]
        have hsettled : Settled ((s.act L (.ack k, m)).out.place k) (about k (s.act L (.ack k, m)).log) := by
          rw [act, about_append, Outbox.turn, hplace, hnews]
          exact H.acked told
        exact .settled hs hacked hsettled
    | settled hs ha H =>
        apply (Stands.settled hs ha H).move
        · rfl
        · simp [act, noteAcked, hs, ha]
        · rw [Outbox.turn, Outbox.ack_nowhere H.gone]
          exact .stay _
  · obtain ⟨hplace, hnews⟩ := Outbox.ack_other s.out m.now hk
    apply (H k).move
    · rfl
    · simp only [act, noteAcked]
      split <;> simp [hk]
    · rw [Outbox.turn, hplace, hnews]
      exact .stay _

theorem stands_act {e : Event E × Moment} (H : ∀ k, Stands s k) (hnew : s.NewId e) (k : MsgId) :
    Stands (s.act L e) k := by
  obtain ⟨e, m⟩ := e
  cases e with
  | send id bytes => exact Stands.send H (hnew id bytes rfl) k
  | ack ref => exact Stands.ack H k
  | resend id => exact (H k).move _ .rfl .rfl (Outbox.resend_move L s.out id m k)
  | flushPending => exact (H k).move _ .rfl .rfl (Outbox.flushPending_move L s.out m k)
  | onSession => exact (H k).move _ .rfl .rfl (Outbox.onSession_move L s.out m k)
  | fire timer => exact (H k).move _ .rfl .rfl (Outbox.fire_move L s.out timer m k)

theorem reach_stands (h : Reach (Ledger.act L) NewId start s) (k : MsgId) : Stands s k := by
  apply h.invariant (I := fun s => ∀ k, Stands s k)
  · intro k
    exact .unsent (by simp [start]) (by simp [start]) rfl rfl
  · intro s e H hnew k
    exact stands_act H hnew k

end Ledger

/-! ## What every run keeps -/

/-- `onDelivered` or `onLateDelivered`, for this id. -/
def Effect.delivers (id : MsgId) (e : Effect E) : Bool := e.news id == some .delivered

theorem count_about (id : MsgId) (log : List (Effect E)) :
    (about id log).count .delivered = log.countP (Effect.delivers id) := by
  rw [about, List.count_filterMap]
  rfl

theorem mem_about {id : MsgId} {log : List (Effect E)} {n : News} :
    n ∈ about id log ↔ ∃ e ∈ log, e.news id = some n :=
  List.mem_filterMap

theorem delivered_mem_about {id : MsgId} {log : List (Effect E)} :
    .delivered ∈ about id log ↔ ∃ e ∈ log, e.delivers id = true := by
  simp [mem_about, Effect.delivers]

theorem undelivered_mem_about {id : MsgId} {log : List (Effect E)} (h : .onUndelivered id ∈ log) :
    .undelivered ∈ about id log :=
  mem_about.mpr ⟨_, h, by simp [Effect.news]⟩

theorem evicted_mem_about {id : MsgId} {log : List (Effect E)} (h : .evicted ∈ about id log) : .evicted id ∈ log := by
  obtain ⟨e, he, hn⟩ := mem_about.mp h
  cases e with
  | evicted i =>
      simp only [Effect.news] at hn
      split at hn
      · rename_i hi
        exact hi ▸ he
      · cases hn
  | emit | onStall => cases hn
  | onDelivered | onLateDelivered | onUndelivered =>
      simp only [Effect.news] at hn
      split at hn <;> cases hn

namespace Ledger.Stands

variable {s : Ledger E} {id : MsgId}

theorem apart (H : Stands s id) : ¬ ((s.out.place id).parked = true ∧ (s.out.place id).pending = true) := by
  cases H with
  | unsent _ _ hp => simp [hp, Place.nowhere]
  | owed _ _ H => exact H.apart
  | settled _ _ H => simp [H.gone, Place.nowhere]

theorem once (H : Stands s id) : (about id s.log).count .delivered ≤ 1 := by
  cases H with
  | unsent _ _ _ hn => simp [hn]
  | owed _ _ H => simp [List.count_eq_zero.mpr H.untold]
  | settled _ _ H => exact H.count_le

theorem cleared (H : Stands s id) (ha : id ∈ s.acked) : s.out.place id = .nowhere := by
  cases H with
  | unsent _ hn | owed _ hn => exact absurd ha hn
  | settled _ _ H => exact H.gone

theorem silent (H : Stands s id) {a b : List News} (h : about id s.log = a ++ b) (ha : .delivered ∈ a) : b = [] := by
  have hmem : .delivered ∈ about id s.log := h ▸ List.mem_append_left b ha
  cases H with
  | unsent _ _ _ hn => simp [hn] at hmem
  | owed _ _ H => exact absurd hmem H.untold
  | settled _ _ H => exact H.silent h ha

theorem kept (H : Stands s id) (hs : id ∈ s.sent) (ha : id ∉ s.acked) : Owed (s.out.place id) (about id s.log) := by
  cases H with
  | unsent hn => exact absurd hs hn
  | owed _ _ H => exact H
  | settled _ hn => exact absurd hn ha

end Ledger.Stands

/-- Over every run: no id is both parked and pending; delivery is reported at most once; what was acknowledged is
held nowhere; nothing is reported undelivered after it was delivered; and what was not is pending or can be sent
again, unless the bound of that table dropped it. -/
theorem books_agree {L : Budget} {s : Ledger E} (h : Reach (Ledger.act L) Ledger.NewId .start s) (id : MsgId) :
    ¬ (s.out.parked.has id = true ∧ s.out.pending.has id = true) ∧
    s.log.countP (Effect.delivers id) ≤ 1 ∧
    (id ∈ s.acked → s.out.pending.has id = false ∧ s.out.parked.has id = false ∧
      s.out.resendable.has id = false ∧ s.out.firstSentAt.has id = false) ∧
    (∀ before after, s.log = before ++ after → (∃ e ∈ before, e.delivers id = true) → .onUndelivered id ∉ after) ∧
    (id ∈ s.sent → id ∉ s.acked →
      s.out.pending.has id = true ∨ s.out.resendable.has id = true ∨ .evicted id ∈ s.log) := by
  have H := Ledger.reach_stands h id
  refine ⟨H.apart, count_about id s.log ▸ H.once, ?_, ?_, ?_⟩
  · intro ha
    have hgone := H.cleared ha
    simp only [Outbox.place, Place.nowhere, Place.mk.injEq] at hgone
    exact hgone
  · intro before after hlog hdel hund
    have hsplit : about id s.log = about id before ++ about id after := hlog ▸ about_append ..
    have hnone := H.silent hsplit (delivered_mem_about.mpr hdel)
    have hmem := undelivered_mem_about hund
    rw [hnone] at hmem
    cases hmem
  · intro hs ha
    obtain hp | hr | he := (H.kept hs ha).kept
    · exact .inl hp
    · exact .inr (.inl hr)
    · exact .inr (.inr (evicted_mem_about he))

/-- Sent into an empty room, given up and parked, then acknowledged after all. -/
def afterAll : Ledger Nat :=
  [(.send [1] 7, ⟨0, false, false⟩), (.fire 1, ⟨1500, false, false⟩), (.fire 2, ⟨5500, false, false⟩),
    (.fire 3, ⟨13500, false, false⟩), (.ack [1], ⟨14000, true, false⟩)].foldl (Ledger.act {}) .start

theorem afterAll_books : afterAll.log.countP (Effect.delivers [1]) = 1 ∧ afterAll.out.parked.has [1] = false := by
  have hrun : Reach (Ledger.act {}) Ledger.NewId .start afterAll :=
    Admits.reach .start ⟨by simp [Ledger.NewId, Ledger.start], by simp [Ledger.NewId], by simp [Ledger.NewId],
      by simp [Ledger.NewId], by simp [Ledger.NewId], trivial⟩
  have H := books_agree hrun [1]
  have hacked : [1] ∈ afterAll.acked := by decide
  have hone : 1 ≤ afterAll.log.countP (Effect.delivers [1]) := by decide
  exact ⟨Nat.le_antisymm H.2.1 hone, (H.2.2.1 hacked).2.1⟩

end EncedoChat.Room
