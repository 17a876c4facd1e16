import EncedoChat.Room.Outbox

/-!
# What an outbox holds

Whatever holds of every message put into an outbox holds of all it keeps and emits.
-/

namespace EncedoChat.Room

variable {E : Type} {P : E → Prop}

namespace Outbox

/-- Every message of the outbox satisfies `P`. -/
structure Holds (P : E → Prop) (o : Outbox E) : Prop where
  pending : o.pending.All (fun p => P p.bytes)
  resendable : o.resendable.All P
  parked : o.parked.All (fun k => P k.bytes)
  timers : o.timers.All (fun t => P t.bytes)

/-- The outbox of a turn and what the turn emits. -/
def HoldsTurn (P : E → Prop) (r : Outbox E × List (Effect E)) : Prop :=
  r.1.Holds P ∧ ∀ bytes, .emit bytes ∈ r.2 → P bytes

theorem Holds.empty : (Outbox.empty : Outbox E).Holds P := ⟨.empty, .empty, .empty, .empty⟩

variable {o : Outbox E} {L : Budget} {m : Moment}

theorem Holds.quiet (h : o.Holds P) : HoldsTurn P (o, []) := ⟨h, fun _ hmem => absurd hmem List.not_mem_nil⟩

theorem Holds.clearTimeout (h : o.Holds P) (timer : Option Nat) : (o.clearTimeout timer).Holds P := by
  cases timer with
  | none => exact h
  | some t => exact { h with timers := h.timers.delete t }

theorem Holds.setTimer (h : o.Holds P) (id : MsgId) {p : Pending E} (hp : P p.bytes) (due : Due) (delay : Time) :
    (o.setTimer id p due delay).Holds P :=
  ⟨h.pending.set id hp, h.resendable, h.parked, h.timers.set _ hp⟩

theorem Holds.armRetry (h : o.Holds P) (id : MsgId) : (o.armRetry L id m).Holds P := by
  rw [Outbox.armRetry]
  cases hp : o.pending.get id with
  | none => exact h
  | some p =>
      have hbytes := h.pending id p hp
      dsimp only
      cases keepTrying L p m with
      | none => exact h.setTimer id hbytes .giveUp _
      | some delay => exact h.setTimer id hbytes .resend delay

theorem Holds.put (h : o.Holds P) (id : MsgId) {bytes : E} (hb : P bytes) (sentAt now : Time) :
    (o.put id bytes sentAt now).Holds P :=
  ⟨h.pending.set id hb, h.resendable, h.parked, h.timers⟩

theorem Holds.trackDelivery (h : o.Holds P) (id : MsgId) {bytes : E} (hb : P bytes) :
    (o.trackDelivery L id bytes m).Holds P :=
  (h.put id hb m.now m.now).armRetry id

theorem Holds.send (h : o.Holds P) (id : MsgId) {bytes : E} (hb : P bytes) : HoldsTurn P (o.send L id bytes m) := by
  refine ⟨h.trackDelivery id hb, ?_⟩
  intro b hmem
  cases List.mem_singleton.mp hmem
  exact hb

theorem Holds.resend (h : o.Holds P) (id : MsgId) : HoldsTurn P (o.resend L id m) := by
  rw [Outbox.resend]
  cases hr : o.resendable.get id with
  | none => exact h.quiet
  | some bytes =>
      have hb := h.resendable id bytes hr
      dsimp only
      split
      · exact h.quiet
      · have hparked : ({ o with parked := o.parked.delete id } : Outbox E).Holds P :=
          { h with parked := h.parked.delete id }
        exact hparked.send id hb

theorem emit_not_mem_onStall (b : E) (c : Prop) [Decidable c] : Effect.emit b ∉ if c then [.onStall] else [] := by
  split <;> simp

theorem Holds.resendDue (h : o.Holds P) {t : Timer E} (ht : P t.bytes) : HoldsTurn P (o.resendDue L t m) := by
  rw [Outbox.resendDue]
  cases hp : o.pending.get t.id with
  | none => exact h.quiet
  | some p =>
      have hb := h.pending t.id p hp
      dsimp only
      constructor
      · apply Holds.armRetry
        refine { h with pending := h.pending.set t.id ?_ }
        split <;> exact hb
      · intro b hmem
        rcases List.mem_append.mp hmem with hmem | hmem
        · exact absurd hmem (emit_not_mem_onStall b _)
        · cases List.mem_singleton.mp hmem
          exact ht

theorem Holds.keepForResend (h : o.Holds P) (id : MsgId) {bytes : E} (hb : P bytes) (sentAt : Time) :
    HoldsTurn P (o.keepForResend id bytes sentAt) := by
  rw [Outbox.keepForResend]
  cases (o.resendable.set id bytes).keys.head? with
  | none => exact ⟨{ h with resendable := h.resendable.set id hb }, fun _ hmem => absurd hmem List.not_mem_nil⟩
  | some oldest =>
      dsimp only
      split
      · exact ⟨{ h with resendable := (h.resendable.set id hb).delete oldest }, by simp⟩
      · exact ⟨{ h with resendable := h.resendable.set id hb }, fun _ hmem => absurd hmem List.not_mem_nil⟩

theorem Holds.park (h : o.Holds P) (id : MsgId) {bytes : E} (hb : P bytes) (sentAt : Time) :
    (o.park id bytes sentAt).Holds P := by
  have hset : (o.parked.set id ⟨bytes, sentAt⟩).All (fun k => P k.bytes) := h.parked.set id hb
  rw [Outbox.park]
  cases (o.parked.set id ⟨bytes, sentAt⟩).keys.head? with
  | none => exact { h with parked := hset }
  | some oldest =>
      dsimp only
      split
      · exact { h with parked := hset.delete oldest }
      · exact { h with parked := hset }

theorem Holds.giveUpDue (h : o.Holds P) {t : Timer E} (ht : P t.bytes) : HoldsTurn P (o.giveUpDue t m) := by
  rw [Outbox.giveUpDue]
  split
  · have hdel : ({ o with pending := o.pending.delete t.id } : Outbox E).Holds P :=
      { h with pending := h.pending.delete t.id }
    have hparked : (if m.present = true then ({ o with pending := o.pending.delete t.id } : Outbox E)
        else ({ o with pending := o.pending.delete t.id } : Outbox E).park t.id t.bytes t.sentAt).Holds P := by
      split
      · exact hdel
      · exact hdel.park t.id ht t.sentAt
    obtain ⟨hkeep, hemit⟩ := hparked.keepForResend t.id ht t.sentAt
    refine ⟨hkeep, ?_⟩
    intro b hmem
    rcases List.mem_append.mp hmem with hmem | hmem
    · exact hemit b hmem
    · simp at hmem
  · exact h.quiet

theorem Holds.fire (h : o.Holds P) (timer : Nat) : HoldsTurn P (o.fire L timer m) := by
  rw [Outbox.fire]
  cases ht : o.timers.get timer with
  | none => exact h.quiet
  | some t =>
      have hb := h.timers timer t ht
      have hdel : ({ o with timers := o.timers.delete timer } : Outbox E).Holds P :=
        { h with timers := h.timers.delete timer }
      dsimp only
      cases t.due with
      | resend => exact hdel.resendDue hb
      | giveUp => exact hdel.giveUpDue hb

theorem HoldsTurn.flushOne {r : Outbox E × List (Effect E)} (h : HoldsTurn P r) (id : MsgId) :
    HoldsTurn P (Outbox.flushOne L m r id) := by
  rw [Outbox.flushOne]
  cases hp : r.1.pending.get id with
  | none => exact h
  | some p =>
      have hb := h.1.pending id p hp
      have hclear := h.1.clearTimeout p.timer
      constructor
      · apply Holds.armRetry
        exact { hclear with pending := hclear.pending.set id hb }
      · intro b hmem
        rcases List.mem_append.mp hmem with hmem | hmem
        · exact h.2 b hmem
        · cases List.mem_singleton.mp hmem
          exact hb

theorem Holds.flushAll (h : o.Holds P) : HoldsTurn P (o.flushAll L m) := by
  have hloop : ∀ (ids : List MsgId) (r : Outbox E × List (Effect E)),
      HoldsTurn P r → HoldsTurn P (ids.foldl (Outbox.flushOne L m) r) := by
    intro ids
    induction ids with
    | nil => exact fun r hr => hr
    | cons id ids ih => exact fun r hr => ih _ (hr.flushOne id)
  exact hloop _ _ h.quiet

theorem Holds.requeue (h : o.Holds P) (now : Time) : (o.requeue now).Holds P := by
  have hback : ∀ (es : List (MsgId × Parked E)) (q : Outbox E), (∀ e ∈ es, P e.2.bytes) → q.Holds P →
      (es.foldl (fun o e => o.put e.1 e.2.bytes e.2.sentAt now) q).Holds P := by
    intro es
    induction es with
    | nil => exact fun q _ hq => hq
    | cons e es ih =>
        intro q hes hq
        exact ih _ (fun e' he' => hes e' (List.mem_cons_of_mem _ he')) (hq.put e.1 (hes e (List.mem_cons_self ..)) _ _)
  have hnewer : ∀ (es : List (MsgId × Pending E)) (q : OrdMap MsgId (Pending E)), (∀ e ∈ es, P e.2.bytes) →
      q.All (fun p => P p.bytes) →
      (es.foldl (fun q e => if q.has e.1 then q else q.set e.1 e.2) q).All (fun p => P p.bytes) := by
    intro es
    induction es with
    | nil => exact fun q _ hq => hq
    | cons e es ih =>
        intro q hes hq
        apply ih _ fun e' he' => hes e' (List.mem_cons_of_mem _ he')
        dsimp only
        split
        · exact hq
        · exact hq.set e.1 (hes e (List.mem_cons_self ..))
  have hcleared : ({ o with pending := .empty, parked := .empty } : Outbox E).Holds P :=
    ⟨.empty, h.resendable, .empty, h.timers⟩
  have hput := hback o.parked.entries _ h.parked.entries hcleared
  exact { hput with pending := hnewer o.pending.entries _ h.pending.entries hput.pending }

theorem Holds.unpark (h : o.Holds P) : HoldsTurn P (o.unpark L m) := (h.requeue m.now).flushAll

theorem Holds.flushPending (h : o.Holds P) : HoldsTurn P (o.flushPending L m) := by
  rw [Outbox.flushPending]
  split
  · exact h.unpark
  · exact h.flushAll

theorem Holds.onSession (h : o.Holds P) : HoldsTurn P (o.onSession L m) := by
  rw [Outbox.onSession]
  split
  · exact h.unpark
  · exact h.quiet

theorem Holds.forget (h : o.Holds P) (ref : MsgId) : (o.forget ref).Holds P :=
  { h with resendable := h.resendable.delete ref }

theorem Holds.clearPending (h : o.Holds P) (id : MsgId) : (o.clearPending id).Holds P := by
  rw [Outbox.clearPending]
  cases o.pending.get id with
  | none => exact h
  | some p =>
      have hclear := h.clearTimeout p.timer
      exact { hclear with pending := hclear.pending.delete id }

theorem Holds.ack (h : o.Holds P) (ref : MsgId) (now : Time) : HoldsTurn P (o.ack ref now) := by
  rw [Outbox.ack]
  cases o.parked.get ref with
  | some k =>
      have hdel : ({ o with parked := o.parked.delete ref } : Outbox E).Holds P :=
        { h with parked := h.parked.delete ref }
      exact ⟨hdel.forget ref, by simp⟩
  | none =>
      cases o.pending.get ref with
      | some p => exact ⟨(h.clearPending ref).forget ref, by simp⟩
      | none =>
          cases o.firstSentAt.get ref with
          | some sentAt => exact ⟨h.forget ref, by simp⟩
          | none => exact h.quiet

end Outbox

end EncedoChat.Room
