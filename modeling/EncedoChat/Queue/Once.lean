import Mathlib
import EncedoChat.Lib.Run
import EncedoChat.Queue.Daemon

/-!
# No confirmed text is sent again

Whoever could still send a text has to hear of its confirmation: the entry, a flush that has it ahead, a submission
that waits.
-/

namespace EncedoChat.Queue

open Room (Time MsgId Moment Budget)

/-- Whenever a text goes out as a new message, no message before it that carried the text was confirmed. -/
def Once : List Note → Prop
  | [] => True
  | .sent _ text _ :: notes => ¬ Acked notes text ∧ Once notes
  | .accepted _ _ _ :: notes | .confirmed _ :: notes | .reported _ :: notes => Once notes

instance Once.decidable : (notes : List Note) → Decidable (Once notes)
  | [] => isTrue trivial
  | .sent _ text _ :: notes =>
    have := Once.decidable notes
    inferInstanceAs (Decidable (¬ Acked notes text ∧ Once notes))
  | .accepted _ _ _ :: notes | .confirmed _ :: notes | .reported _ :: notes => Once.decidable notes

/-- The texts a message carried. -/
def carried (notes : List Note) (id : MsgId) : List Text :=
  notes.filterMap fun
    | .sent id' text _ => if id' = id then some text else none
    | _ => none

def Wait.confirms (q : Qid) (id : MsgId) : Wait → Bool
  | .confirming q' id' _ => q' = q ∧ id' = id
  | _ => false

def Sending.confirms (id : MsgId) : Sending → Bool
  | .confirming id' => id' = id
  | _ => false

namespace Daemon

variable (d : Daemon)

/-- The room confirms the message. -/
def confirms (recipient : String) (ref : MsgId) : Bool :=
  d.inTime recipient ref || (d.rooms recipient).firstSentAt.has ref

/-- The confirmation of the message takes the entry out. -/
def Hears (ref : MsgId) (e : Entry) : Prop :=
  (d.inflight.get ref).any (fun f => f.qid = e.qid) = true ∨
    (d.flushes.get e.recipient).any (Wait.confirms e.qid ref) = true

/-- No flush is about to send the text, or has an entry with it ahead. -/
def Behind (text : Text) : Prop :=
  ∀ kv ∈ d.flushes.entries, kv.2.about ≠ some text ∧
    ∀ q ∈ kv.2.ahead, ∀ e ∈ d.outbox.cells.get q, e.text ≠ text

instance (ref : MsgId) (e : Entry) : Decidable (d.Hears ref e) := inferInstanceAs (Decidable (_ ∨ _))

instance (text : Text) : Decidable (d.Behind text) :=
  inferInstanceAs (Decidable (∀ kv ∈ d.flushes.entries, kv.2.about ≠ some text ∧
    ∀ q ∈ kv.2.ahead, ∀ e ∈ d.outbox.cells.get q, e.text ≠ text))

end Daemon

namespace World

/-- A text is confirmed in time to all that could still send it. -/
def OnTime (w : World) : Event → Prop
  | .ack recipient ref _ =>
    w.daemon.confirms recipient ref = true → ∀ text ∈ carried w.notes ref, ¬ Acked w.notes text →
      (∀ e ∈ w.daemon.outbox.all, e.text = text → w.daemon.inTime recipient ref = true ∧ w.daemon.Hears ref e) ∧
      w.daemon.Behind text ∧
      ∀ kv ∈ w.daemon.directs.entries, kv.2.text = text →
        w.daemon.inTime recipient ref = true ∧ kv.2.sending.confirms ref = true
  | _ => True

instance (w : World) : (a : Event) → Decidable (w.OnTime a)
  | .ack recipient ref _ =>
    inferInstanceAs (Decidable (w.daemon.confirms recipient ref = true → ∀ text ∈ carried w.notes ref,
      ¬ Acked w.notes text →
        (∀ e ∈ w.daemon.outbox.all, e.text = text → w.daemon.inTime recipient ref = true ∧ w.daemon.Hears ref e) ∧
        w.daemon.Behind text ∧
        ∀ kv ∈ w.daemon.directs.entries, kv.2.text = text →
          w.daemon.inTime recipient ref = true ∧ kv.2.sending.confirms ref = true))
  | .submit _ _ _ _ _ | .presence _ _ _ | .tick _ | .flush _ _ | .entered _ _ _ | .absent _ | .resumed _ _ | .failed _
  | .enteredDirect _ _ _ | .resumedDirect _ _ | .failedDirect _ | .timeout _ | .room _ _ => inferInstanceAs (Decidable True)

end World

/-! ## What counts as confirmed -/

variable {notes more : List Note} {text : Text}

theorem mem_carried {id : MsgId} : text ∈ carried notes id ↔ id ∈ carriers notes text := by
  rw [mem_carriers, carried, List.mem_filterMap]
  constructor
  · rintro ⟨n, hn, ht⟩
    cases n with
    | sent id' text' entry =>
        dsimp only at ht
        split at ht
        · rename_i hid
          cases ht
          exact ⟨entry, hid ▸ hn⟩
        · cases ht
    | accepted | confirmed | reported => cases ht
  · rintro ⟨entry, hn⟩
    exact ⟨_, hn, if_pos rfl⟩

theorem acked_iff : Acked notes text ↔ ∃ id entry, Note.sent id text entry ∈ notes ∧ Note.confirmed id ∈ notes := by
  constructor
  · rintro ⟨id, hid, hconf⟩
    obtain ⟨entry, hsent⟩ := mem_carriers.mp hid
    exact ⟨id, entry, hsent, hconf⟩
  · rintro ⟨id, entry, hsent, hconf⟩
    exact ⟨id, mem_carriers.mpr ⟨entry, hsent⟩, hconf⟩

/-- Notes of no message confirm nothing. -/
theorem acked_silent (h : ∀ n ∈ more, n.id = none) : Acked (more ++ notes) text ↔ Acked notes text := by
  refine ⟨fun hack => ?_, Acked.mono more⟩
  obtain ⟨id, entry, hsent, hconf⟩ := acked_iff.mp hack
  have old : ∀ {n : Note}, n ∈ more ++ notes → n.id ≠ none → n ∈ notes := fun hn hid =>
    (List.mem_append.mp hn).resolve_left fun hm => hid (h _ hm)
  exact acked_iff.mpr ⟨id, entry, old hsent (by simp [Note.id]), old hconf (by simp [Note.id])⟩

/-- A message that has just gone out is not confirmed. -/
theorem acked_sent {id : MsgId} {what : Text} {entry : Option Qid} (h : id ∉ notes.filterMap Note.id) :
    Acked (.sent id what entry :: notes) text ↔ Acked notes text := by
  refine ⟨fun hack => ?_, Acked.mono [_]⟩
  obtain ⟨id', entry', hsent, hconf⟩ := acked_iff.mp hack
  have hold : Note.confirmed id' ∈ notes := by simpa using hconf
  have hne : id' ≠ id := by
    rintro rfl
    exact h (List.mem_filterMap.mpr ⟨_, hold, rfl⟩)
  refine acked_iff.mpr ⟨id', entry', ?_, hold⟩
  simpa [hne] using hsent

theorem acked_confirmed {ref : MsgId} (h : Acked (.confirmed ref :: notes) text) :
    Acked notes text ∨ text ∈ carried notes ref := by
  obtain ⟨id, entry, hsent, hconf⟩ := acked_iff.mp h
  have hold : Note.sent id text entry ∈ notes := by simpa using hsent
  obtain hid | hconf := List.mem_cons.mp hconf
  · cases hid
    exact .inr (mem_carried.mpr (mem_carriers.mpr ⟨entry, hold⟩))
  · exact .inl (acked_iff.mpr ⟨id, entry, hold, hconf⟩)

theorem once_silent (h : ∀ n ∈ more, n.id = none) (ho : Once notes) : Once (more ++ notes) := by
  induction more with
  | nil => exact ho
  | cons n more ih =>
      have hrest := ih fun n hn => h n (List.mem_cons_of_mem _ hn)
      cases n with
      | sent => exact absurd (h _ (List.mem_cons_self ..)) (by simp [Note.id])
      | accepted | confirmed | reported => exact hrest

/-! ## Who may still send -/

@[simp] theorem Wait.ahead_answer (w : Wait) (id : MsgId) (ok : Bool) : (w.answer id ok).ahead = w.ahead := by
  cases w with
  | confirming q id' rest =>
      simp only [Wait.answer]
      split <;> rfl
  | resending | resent | entering | settled | saving => rfl

@[simp] theorem Wait.about_answer (w : Wait) (id : MsgId) (ok : Bool) : (w.answer id ok).about = w.about := by
  cases w with
  | confirming q id' rest =>
      simp only [Wait.answer]
      split <;> rfl
  | resending | resent | entering | settled | saving => rfl

namespace World

/-- The text was submitted and is not confirmed. -/
def Unconfirmed (w : World) (text : Text) : Prop := text.nr < w.daemon.next ∧ ¬ Acked w.notes text

/-- A flush that waits sends nothing that is confirmed. -/
structure Careful (w : World) (wait : Wait) : Prop where
  ahead : ∀ q ∈ wait.ahead, ∀ e, w.daemon.outbox.cells.get q = some e → ¬ Acked w.notes e.text
  about : ∀ text, wait.about = some text → w.Unconfirmed text

/-- A submission that is confirmed has been told. -/
def Told (w : World) (x : Direct) : Prop :=
  x.text.nr < w.daemon.next ∧ (Acked w.notes x.text → ∃ id, x.sending = .settled id true)

/-- A flush is about to take the entry out. -/
def Leaving (w : World) (e : Entry) : Prop :=
  ∃ id rest, w.daemon.flushes.get e.recipient = some (.settled e.qid id rest true)

structure Quiet (w : World) : Prop where
  once : Once w.notes
  sent : ∀ id text entry, Note.sent id text entry ∈ w.notes → text.nr < w.daemon.next
  cells : ∀ q e, w.daemon.outbox.cells.get q = some e → e.text.nr < w.daemon.next
  entries : ∀ e ∈ w.daemon.outbox.all, Acked w.notes e.text → w.Leaving e
  flushes : w.daemon.flushes.All w.Careful
  directs : w.daemon.directs.All w.Told

variable {w w' : World}

/-- A text that is submitted now is not confirmed. -/
theorem Quiet.not_acked (h : Quiet w) {text : Text} (hnr : w.daemon.next ≤ text.nr) : ¬ Acked w.notes text := by
  intro hack
  obtain ⟨id, entry, hsent, -⟩ := acked_iff.mp hack
  exact absurd (h.sent id text entry hsent) (Nat.not_lt.mpr hnr)

/-- A step after which no more is confirmed than before. -/
structure Calm (w w' : World) : Prop where
  acked : ∀ text, Acked w'.notes text → Acked w.notes text
  next : w.daemon.next ≤ w'.daemon.next
  cells : ∀ q e, w'.daemon.outbox.cells.get q = some e →
    w.daemon.outbox.cells.get q = some e ∨ w'.Unconfirmed e.text

theorem Calm.unconfirmed (hc : Calm w w') {text : Text} (h : w.Unconfirmed text) : w'.Unconfirmed text :=
  ⟨h.1.trans_le hc.next, fun hack => h.2 (hc.acked text hack)⟩

theorem Calm.careful (hc : Calm w w') {wait : Wait} (h : w.Careful wait) : w'.Careful wait where
  ahead := fun q hq e he => by
    obtain hold | hnew := hc.cells q e he
    · exact fun hack => h.ahead q hq e hold (hc.acked _ hack)
    · exact hnew.2
  about := fun text ht => hc.unconfirmed (h.about text ht)

theorem Calm.told (hc : Calm w w') {x : Direct} (h : w.Told x) : w'.Told x :=
  ⟨h.1.trans_le hc.next, fun hack => h.2 (hc.acked _ hack)⟩

theorem Calm.below (hc : Calm w w') (h : Quiet w) :
    ∀ q e, w'.daemon.outbox.cells.get q = some e → e.text.nr < w'.daemon.next := by
  intro q e he
  obtain hold | hnew := hc.cells q e he
  · exact (h.cells q e hold).trans_le hc.next
  · exact hnew.1

theorem calm_silent {more : List Note} (hnotes : w'.notes = more ++ w.notes) (hn : ∀ n ∈ more, n.id = none)
    (hle : w.daemon.next ≤ w'.daemon.next)
    (hcells : ∀ q e, w'.daemon.outbox.cells.get q = some e →
      w.daemon.outbox.cells.get q = some e ∨ w'.Unconfirmed e.text) : Calm w w' :=
  ⟨fun text hack => (acked_silent hn).mp (hnotes ▸ hack), hle, hcells⟩

theorem Quiet.sent_silent (h : Quiet w) {more : List Note} (hnotes : w'.notes = more ++ w.notes)
    (hn : ∀ n ∈ more, n.id = none) (hle : w.daemon.next ≤ w'.daemon.next) :
    ∀ id text entry, Note.sent id text entry ∈ w'.notes → text.nr < w'.daemon.next := by
  intro id text entry hs
  rw [hnotes, List.mem_append] at hs
  obtain hm | hold := hs
  · exact absurd (hn _ hm) (by simp [Note.id])
  · exact (h.sent id text entry hold).trans_le hle

/-- A step that sends nothing, and takes no flush away that would take a confirmed entry out. -/
theorem Quiet.silent (h : Quiet w) (more : List Note) (hnotes : w'.notes = more ++ w.notes)
    (hn : ∀ n ∈ more, n.id = none) (hle : w.daemon.next ≤ w'.daemon.next)
    (hcells : ∀ q e, w'.daemon.outbox.cells.get q = some e →
      w.daemon.outbox.cells.get q = some e ∨ w'.Unconfirmed e.text)
    (hentries : ∀ e ∈ w'.daemon.outbox.all, Acked w.notes e.text → w'.Leaving e)
    (hflushes : ∀ r wait, w'.daemon.flushes.get r = some wait →
      w.daemon.flushes.get r = some wait ∨ w'.Careful wait)
    (hdirects : ∀ nr x, w'.daemon.directs.get nr = some x → w.daemon.directs.get nr = some x ∨ w'.Told x) :
    Quiet w' := by
  have hc : Calm w w' := calm_silent hnotes hn hle hcells
  exact {
    once := hnotes ▸ once_silent hn h.once
    sent := h.sent_silent hnotes hn hle
    cells := hc.below h
    entries := fun e he hack => hentries e he (hc.acked _ hack)
    flushes := fun r wait hr => (hflushes r wait hr).elim (fun hold => hc.careful (h.flushes r wait hold)) id
    directs := fun nr x hx => (hdirects nr x hx).elim (fun hold => hc.told (h.directs nr x hold)) id }

/-- A flush that was not to take an entry out goes on. -/
theorem Quiet.flushed (h : Quiet w) {recipient : String} {l : List Qid}
    (hnotes : w'.notes = w.notes) (hf : Daemon.Flushed recipient l w.daemon w'.daemon)
    (hno : ∀ q id rest, w.daemon.flushes.get recipient ≠ some (.settled q id rest true))
    (hl : ∀ q ∈ l, ∀ e, w.daemon.outbox.cells.get q = some e → ¬ Acked w.notes e.text) : Quiet w' := by
  refine h.silent [] hnotes (List.forall_mem_nil _) hf.next.ge (fun q e he => .inl (hf.outbox ▸ he)) (fun e he hack => ?_)
    (fun r wait hr => ?_) fun nr x hx => .inl (hf.directs ▸ hx)
  · obtain ⟨id, rest, hleave⟩ := h.entries e (hf.outbox ▸ he) hack
    refine ⟨id, rest, ?_⟩
    rw [hf.others, hleave]
    intro hrec
    exact hno e.qid id rest (hrec ▸ hleave)
  · by_cases hrec : r = recipient
    · subst hrec
      right
      have hin := hf.within wait hr
      refine ⟨fun q hq e he => ?_, fun text ht => ?_⟩
      · rw [hf.outbox] at he
        rw [hnotes]
        exact hl q (hin.ahead q hq) e he
      · obtain ⟨q, hq, e, he, rfl⟩ := hin.about text ht
        refine ⟨hf.next ▸ h.cells q e he, ?_⟩
        rw [hnotes]
        exact hl q hq e he
    · exact .inl (hf.others r hrec ▸ hr)

/-- A flush that was waiting goes on with what it had ahead. -/
theorem Quiet.flushed_on (h : Quiet w) {recipient : String} {wait : Wait} (hnotes : w'.notes = w.notes)
    (hw : w.daemon.flushes.get recipient = some wait) (hno : ∀ q id rest, wait ≠ .settled q id rest true)
    (hf : Daemon.Flushed recipient wait.ahead w.daemon w'.daemon) : Quiet w' := by
  refine h.flushed hnotes hf (fun q id rest hs => ?_) (h.flushes recipient wait hw).ahead
  rw [hw] at hs
  exact hno q id rest (Option.some.inj hs)

/-- A flush that starts finds nothing confirmed. -/
theorem Quiet.due (h : Quiet w) {recipient : String} {now : Time} (hnone : w.daemon.flushes.get recipient = none) :
    ∀ q ∈ (w.daemon.outbox.due recipient now).map Entry.qid, ∀ e, w.daemon.outbox.cells.get q = some e →
      ¬ Acked w.notes e.text := by
  intro q hq e he hack
  obtain ⟨x, hx, rfl⟩ := List.mem_map.mp hq
  obtain ⟨hin, hrec⟩ := Outbox.due_sub hx
  obtain rfl : x = e := Option.some.inj ((Outbox.mem_all.mp hin).2.symm.trans he)
  obtain ⟨id, rest, hleave⟩ := h.entries x hin hack
  rw [hrec, hnone] at hleave
  cases hleave

/-- A text that is not confirmed is put into the queue. -/
theorem Quiet.added (h : Quiet w) {recipient : String} {text : Text} {now : Time} {ttlMs : Option Time}
    {key : Option String} (more : List Note) (hnotes : w'.notes = more ++ w.notes) (hn : ∀ n ∈ more, n.id = none)
    (hle : w.daemon.next ≤ w'.daemon.next)
    (hout : w'.daemon.outbox = (w.daemon.outbox.add recipient text now ttlMs key).1)
    (hfl : w'.daemon.flushes = w.daemon.flushes) (htext : w'.Unconfirmed text)
    (hdirects : ∀ nr x, w'.daemon.directs.get nr = some x → w.daemon.directs.get nr = some x ∨ w'.Told x) :
    Quiet w' := by
  obtain ⟨x, hx, -⟩ := Outbox.add_placed w.daemon.outbox recipient text now ttlMs key
  have hack : ¬ Acked w.notes x.text := by
    rw [hx.text]
    intro hack
    exact htext.2 (hnotes ▸ hack.mono more)
  refine h.silent more hnotes hn hle (fun q e he => ?_) (fun e he hacked => ?_)
    (fun r wait hr => .inl (hfl ▸ hr)) hdirects
  · rw [hout, hx.cells] at he
    obtain ⟨-, rfl⟩ | ⟨-, hold⟩ := OrdMap.get_set_some he
    · exact .inr (hx.text ▸ htext)
    · exact .inl hold
  · rw [hout] at he
    obtain rfl | hold := hx.old e he
    · exact absurd hacked hack
    · obtain ⟨id, rest, hleave⟩ := h.entries e hold hacked
      exact ⟨id, rest, hfl ▸ hleave⟩

/-- A text that is not confirmed goes out under a new id. -/
theorem Quiet.send {d : Daemon} {notes : List Note} (h : Quiet ⟨d, notes⟩) {id : MsgId} {text : Text}
    {entry : Option Qid} (hid : id ∉ notes.filterMap Note.id) (htext : World.Unconfirmed ⟨d, notes⟩ text) :
    Quiet ⟨d, .sent id text entry :: notes⟩ := by
  have hc : Calm ⟨d, notes⟩ ⟨d, .sent id text entry :: notes⟩ :=
    ⟨fun t hack => (acked_sent hid).mp hack, le_rfl, fun q e he => .inl he⟩
  exact {
    once := ⟨htext.2, h.once⟩
    sent := fun id' text' entry' hs => by
      obtain heq | hold := List.mem_cons.mp hs
      · cases heq
        exact htext.1
      · exact h.sent id' text' entry' hold
    cells := h.cells
    entries := fun e he hack => h.entries e he (hc.acked _ hack)
    flushes := fun r wait hr => hc.careful (h.flushes r wait hr)
    directs := fun nr x hx => hc.told (h.directs nr x hx) }

variable {L : Budget}

theorem Quiet.submit (h : Quiet w) {recipient body : String} {key : Option String} {ttlMs : Option Time} {now : Time} :
    Quiet (w.step L (.submit recipient body key ttlMs now)) := by
  let text : Text := ⟨body, w.daemon.next⟩
  have hack : ¬ Acked w.notes text := h.not_acked le_rfl
  by_cases hnow : recipient ∈ w.daemon.online ∧ w.daemon.outbox.throttled recipient key now = false ∧
      w.daemon.outbox.due recipient now = []
  · have hstep : w.daemon.submit recipient body key ttlMs now = ({ w.daemon with
        next := w.daemon.next + 1
        directs := w.daemon.directs.set text.nr ⟨recipient, text, key, ttlMs, now, .entering⟩ }, []) := by
      rw [Daemon.submit, if_pos hnow]
    simp only [step, Daemon.act, hstep]
    refine h.silent [] rfl (List.forall_mem_nil _) (Nat.le_succ _) (fun q e he => .inl he) h.entries
      (fun r wait hr => .inl hr) fun nr x hx => ?_
    obtain ⟨-, rfl⟩ | ⟨-, hold⟩ := OrdMap.get_set_some hx
    · exact .inr ⟨Nat.lt_succ_self _, fun hacked => absurd hacked hack⟩
    · exact .inl hold
  · have hstep : w.daemon.submit recipient body key ttlMs now =
        ({ w.daemon with
          next := w.daemon.next + 1
          outbox := (w.daemon.outbox.add recipient text now ttlMs key).1 },
          .accepted text recipient key ::
            (w.daemon.outbox.add recipient text now ttlMs key).2.dropped.map (fun e => .reported e.text)) := by
      rw [Daemon.submit, if_neg hnow]
    have hn : ∀ n ∈ Note.accepted text recipient key ::
        (w.daemon.outbox.add recipient text now ttlMs key).2.dropped.map (fun e => Note.reported e.text),
        n.id = none := by
      simp [Note.id]
    simp only [step, Daemon.act, hstep]
    refine h.added (_ :: _) rfl hn (Nat.le_succ _) rfl rfl ⟨Nat.lt_succ_self _, ?_⟩ fun nr x hx => .inl hx
    exact fun hacked => hack ((acked_silent hn).mp hacked)

theorem Quiet.resumed (h : Quiet w) {recipient : String} {now : Time} :
    Quiet (w.step L (.resumed recipient now)) := by
  cases hw : w.daemon.flushes.get recipient with
  | none => simpa only [step, Daemon.act, Daemon.resumed_none now hw, List.nil_append] using h
  | some wait =>
      by_cases hset : ∃ q id rest, wait = .settled q id rest true
      · obtain ⟨q, id, rest, rfl⟩ := hset
        obtain ⟨o, hstep, hcells, hall⟩ := Daemon.resumed_settled now hw
        simp only [step, Daemon.act, hstep]
        refine h.silent [] rfl (List.forall_mem_nil _) le_rfl (fun q' e he => .inl (hcells ▸ he)) (fun e he hack => ?_)
          (fun r wait hr => ?_) fun nr x hx => .inl hx
        · obtain ⟨hin, hne⟩ := (hall e).mp he
          obtain ⟨id', rest', hleave⟩ := h.entries e hin hack
          refine ⟨id', rest', (OrdMap.get_set_ne _ _ ?_).trans hleave⟩
          rintro hrec
          rw [hrec, hw] at hleave
          cases hleave
          exact hne rfl
        · obtain ⟨-, rfl⟩ | ⟨-, hold⟩ := OrdMap.get_set_some hr
          · refine .inr ⟨fun q' hq' e he => ?_, fun text ht => by cases ht⟩
            exact (h.flushes recipient _ hw).ahead q' hq' e (hcells ▸ he)
          · exact .inl hold
      · have hno : ∀ q id rest, wait ≠ .settled q id rest true := fun q id rest he => hset ⟨q, id, rest, he⟩
        obtain hsame | hf := Daemon.flushed_resumed now hw hno
        · simpa only [step, Daemon.act, hsame, List.nil_append] using h
        · exact h.flushed_on rfl hw hno hf

theorem Quiet.resumedDirect (h : Quiet w) {nr : Nat} {now : Time} : Quiet (w.step L (.resumedDirect nr now)) := by
  have same : w.daemon.resumedDirect nr now = (w.daemon, []) → Quiet (w.step L (.resumedDirect nr now)) := by
    intro hs
    simpa only [step, Daemon.act, hs, List.nil_append] using h
  cases hx : w.daemon.directs.get nr with
  | none => exact same (by rw [Daemon.resumedDirect, hx])
  | some x =>
      obtain ⟨hlt, htold⟩ := h.directs nr x hx
      have hn : ∀ n ∈ [Note.accepted x.text x.recipient x.key], n.id = none := by simp [Note.id]
      cases hs : x.sending with
      | entering => exact same (by rw [Daemon.resumedDirect, hx]; simp only [hs])
      | confirming id => exact same (by rw [Daemon.resumedDirect, hx]; simp only [hs])
      | settled id ok =>
          cases ok with
          | true =>
              have hstep : w.daemon.resumedDirect nr now = ({ w.daemon with
                  directs := w.daemon.directs.delete nr
                  outbox := w.daemon.outbox.went x.recipient x.key now }, [.accepted x.text x.recipient x.key]) := by
                rw [Daemon.resumedDirect, hx]
                simp only [hs, if_pos]
              have hall := Outbox.all_went (o := w.daemon.outbox) x.recipient x.key now
              have hcells := Outbox.cells_went (o := w.daemon.outbox) x.recipient x.key now
              simp only [step, Daemon.act, hstep]
              refine h.silent _ rfl hn le_rfl (fun q e he => .inl (hcells ▸ he)) (fun e he => h.entries e (hall ▸ he))
                (fun r wait hr => .inl hr) fun n y hy => .inl (OrdMap.get_delete_some hy).2
          | false =>
              have hstep : w.daemon.resumedDirect nr now = ({ w.daemon with
                  directs := w.daemon.directs.delete nr
                  outbox := (w.daemon.outbox.add x.recipient x.text x.now x.ttlMs x.key).1 }.fly id
                    (w.daemon.outbox.add x.recipient x.text x.now x.ttlMs x.key).2.entry x.recipient now,
                  [.accepted x.text x.recipient x.key]) := by
                rw [Daemon.resumedDirect, hx]
                simp only [hs, Bool.false_eq_true, if_false]
              simp only [step, Daemon.act, hstep]
              refine h.added _ rfl hn le_rfl rfl rfl ⟨hlt, fun hack => ?_⟩
                fun n y hy => .inl (OrdMap.get_delete_some hy).2
              obtain ⟨id', hs'⟩ := htold ((acked_silent hn).mp hack)
              rw [hs] at hs'
              cases hs'

theorem Quiet.tick (h : Quiet w) {now : Time} : Quiet (w.step L (.tick now)) := by
  refine h.silent ((w.daemon.outbox.expire now).2.map (fun e => .reported e.text)) rfl (by simp [Note.id]) le_rfl
    (fun q e he => .inl he) (fun e he => h.entries e (Outbox.mem_all_keep.mp he).1) (fun r wait hr => .inl hr)
    fun nr x hx => .inl hx

theorem Quiet.enteredDirect (h : Quiet w) {nr : Nat} {newId : MsgId} {m : Moment}
    (hok : w.Fair (.enteredDirect nr newId m)) : Quiet (w.step L (.enteredDirect nr newId m)) := by
  have same : w.daemon.enteredDirect L nr newId m = (w.daemon, []) → Quiet (w.step L (.enteredDirect nr newId m)) := by
    intro hs
    simpa only [World.step, Daemon.act, hs, List.nil_append] using h
  cases hx : w.daemon.directs.get nr with
  | none => exact same (by rw [Daemon.enteredDirect, hx])
  | some x =>
      cases hs : x.sending with
      | confirming id => exact same (by rw [Daemon.enteredDirect, hx]; simp only [hs])
      | settled id ok => exact same (by rw [Daemon.enteredDirect, hx]; simp only [hs])
      | entering =>
          obtain ⟨hlt, htold⟩ := h.directs nr x hx
          have hun : w.Unconfirmed x.text := ⟨hlt, fun hack => by
            obtain ⟨id, hid⟩ := htold hack
            rw [hs] at hid
            cases hid⟩
          have hsent : Quiet ⟨w.daemon, .sent newId x.text none :: w.notes⟩ := h.send hok hun
          simp only [World.step, Daemon.act, Daemon.enteredDirect, hx, hs]
          refine hsent.silent [] rfl (List.forall_mem_nil _) le_rfl (fun q e he => .inl he) hsent.entries
            (fun r wait hr => .inl hr) fun n y hy => ?_
          obtain ⟨-, rfl⟩ | ⟨-, hold⟩ := OrdMap.get_set_some hy
          · exact .inr ⟨hlt, fun hack => absurd ((acked_sent hok).mp hack) hun.2⟩
          · exact .inl hold

theorem Quiet.failedDirect (h : Quiet w) {nr : Nat} : Quiet (w.step L (.failedDirect nr)) := by
  simp only [World.step, Daemon.act, Daemon.failedDirect]
  split
  · exact h
  · split
    · exact h.silent [] rfl (List.forall_mem_nil _) le_rfl (fun q e he => .inl he) h.entries
        (fun r wait hr => .inl hr) fun n y hy => .inl (OrdMap.get_delete_some hy).2
    · exact h

theorem Quiet.entered (h : Quiet w) {recipient : String} {newId : MsgId} {m : Moment}
    (hok : w.Fair (.entered recipient newId m)) : Quiet (w.step L (.entered recipient newId m)) := by
  cases hw : w.daemon.flushes.get recipient with
  | none => simpa only [World.step, Daemon.act, Daemon.entered, hw, List.nil_append] using h
  | some wait =>
      have hf := Daemon.flushed_entered (L := L) newId m hw
      by_cases hno : ∃ q id rest, wait = .settled q id rest true
      · obtain ⟨q, id, rest, rfl⟩ := hno
        simpa only [World.step, Daemon.act, Daemon.entered, hw, List.nil_append] using h
      · have on : Quiet ⟨(w.daemon.entered L recipient newId m).1, w.notes⟩ :=
          h.flushed_on rfl hw (fun q id rest he => hno ⟨q, id, rest, he⟩) hf
        rw [World.step, Daemon.act]
        have hun := (h.flushes recipient wait hw).about
        cases wait with
        | entering q what said rest =>
            simp only [Daemon.entered, hw] at on ⊢
            exact on.send hok (hun what rfl)
        | resending | resent | confirming | settled | saving =>
            simp only [Daemon.entered, hw] at on ⊢
            exact on

theorem Quiet.absent (h : Quiet w) {recipient : String} : Quiet (w.step L (.absent recipient)) := by
  cases hw : w.daemon.flushes.get recipient with
  | none => simpa only [World.step, Daemon.act, Daemon.absent, hw, List.nil_append] using h
  | some wait =>
      by_cases hno : ∃ q id rest, wait = .settled q id rest true
      · obtain ⟨q, id, rest, rfl⟩ := hno
        simpa only [World.step, Daemon.act, Daemon.absent, hw, List.nil_append] using h
      · exact h.flushed_on rfl hw (fun q id rest he => hno ⟨q, id, rest, he⟩) (Daemon.flushed_absent hw)

theorem Quiet.failed (h : Quiet w) {recipient : String} : Quiet (w.step L (.failed recipient)) := by
  cases hw : w.daemon.flushes.get recipient with
  | none => simpa only [World.step, Daemon.act, Daemon.failed, hw, List.nil_append] using h
  | some wait =>
      by_cases hno : ∃ q id rest, wait = .settled q id rest true
      · obtain ⟨q, id, rest, rfl⟩ := hno
        simpa only [World.step, Daemon.act, Daemon.failed, hw, List.nil_append] using h
      · exact h.flushed_on rfl hw (fun q id rest he => hno ⟨q, id, rest, he⟩) (Daemon.flushed_failed hw)

/-! ## What waits is told -/

theorem Leaving.answer {e : Entry} {id : MsgId} {ok : Bool} (h : w.Leaving e)
    (hf : w'.daemon.flushes = (w.daemon.answer id ok).flushes) : w'.Leaving e := by
  obtain ⟨id', rest, hleave⟩ := h
  refine ⟨id', rest, ?_⟩
  rw [hf, Daemon.answer, OrdMap.get_map, hleave]
  rfl

/-- An answer changes nothing in what a flush may still send. -/
theorem careful_answer (id : MsgId) (ok : Bool) (hf : w'.daemon.flushes = (w.daemon.answer id ok).flushes)
    (h : ∀ r wait, w.daemon.flushes.get r = some wait → w'.Careful wait) : w'.daemon.flushes.All w'.Careful := by
  intro r wait hr
  rw [hf, Daemon.answer, OrdMap.get_map] at hr
  obtain ⟨y, hy, rfl⟩ := Option.map_eq_some_iff.mp hr
  have hcare := h r y hy
  exact ⟨by rw [Wait.ahead_answer]; exact hcare.ahead, by rw [Wait.about_answer]; exact hcare.about⟩

theorem Quiet.timeout (h : Quiet w) {id : MsgId} : Quiet (w.step L (.timeout id)) := by
  refine h.silent [] rfl (List.forall_mem_nil _) le_rfl (fun q e he => .inl he) (fun e he hack => ?_)
    (fun r wait hr => .inr ?_) fun nr x hx => .inr ?_
  · exact (h.entries e he hack).answer rfl
  · refine careful_answer (w := w) id false rfl (fun r wait hr => ?_) r wait hr
    exact ⟨(h.flushes r wait hr).ahead, (h.flushes r wait hr).about⟩
  · simp only [World.step, Daemon.act, Daemon.answer, OrdMap.get_map] at hx
    obtain ⟨y, hy, rfl⟩ := Option.map_eq_some_iff.mp hx
    obtain ⟨hlt, htold⟩ := h.directs nr y hy
    refine ⟨hlt, fun hack => ?_⟩
    obtain ⟨id', hs⟩ := htold hack
    exact ⟨id', by simp only [hs]; rfl⟩

/-- What a message carried that is confirmed now for the first time. -/
def News (w : World) (ref : MsgId) (text : Text) : Prop := text ∈ carried w.notes ref ∧ ¬ Acked w.notes text

theorem acked_news {ref : MsgId} {text : Text} (h : Acked (.confirmed ref :: w.notes) text) :
    Acked w.notes text ∨ w.News ref text := by
  by_cases hold : Acked w.notes text
  · exact .inl hold
  · exact .inr ⟨(acked_confirmed h).resolve_left hold, hold⟩

theorem Quiet.confirmed (h : Quiet w) (ref : MsgId) (hnotes : w'.notes = .confirmed ref :: w.notes)
    (hnext : w'.daemon.next = w.daemon.next) (hcells : w'.daemon.outbox.cells = w.daemon.outbox.cells)
    (hbehind : ∀ text, w.News ref text → w.daemon.Behind text)
    (hentries : ∀ e ∈ w'.daemon.outbox.all, e ∈ w.daemon.outbox.all ∧ (w.Leaving e → w'.Leaving e) ∧
      (w.News ref e.text → w'.Leaving e))
    (hflushes : ∀ r wait', w'.daemon.flushes.get r = some wait' → ∃ wait, w.daemon.flushes.get r = some wait ∧
      wait'.ahead = wait.ahead ∧ wait'.about = wait.about)
    (hdirects : ∀ nr x', w'.daemon.directs.get nr = some x' → ∃ x, w.daemon.directs.get nr = some x ∧
      x'.text = x.text ∧ ((∃ id, x.sending = .settled id true) → ∃ id, x'.sending = .settled id true) ∧
      (w.News ref x.text → ∃ id, x'.sending = .settled id true)) : Quiet w' := by
  have split : ∀ {text : Text}, Acked w'.notes text → Acked w.notes text ∨ w.News ref text :=
    fun hack => acked_news (hnotes ▸ hack)
  refine ⟨?_, fun id text entry hs => ?_, fun q e he => ?_, fun e he hack => ?_, fun r wait' hr => ?_,
    fun nr x' hx => ?_⟩
  · rw [hnotes]
    exact h.once
  · rw [hnotes] at hs
    rw [hnext]
    exact h.sent id text entry (by simpa using hs)
  · rw [hcells] at he
    exact hnext ▸ h.cells q e he
  · obtain ⟨hin, hstay, hleave⟩ := hentries e he
    exact (split hack).elim (fun hold => hstay (h.entries e hin hold)) hleave
  · obtain ⟨wait, hw, hahead, habout⟩ := hflushes r wait' hr
    have hcare := h.flushes r wait hw
    have hb := fun {text : Text} (hn : w.News ref text) => hbehind text hn (r, wait) (OrdMap.get_eq_some.mp hw)
    refine ⟨fun q hq e he hack => ?_, fun text ht => ?_⟩
    · rw [hahead] at hq
      rw [hcells] at he
      obtain hold | hnew := split hack
      · exact hcare.ahead q hq e he hold
      · exact (hb hnew).2 q hq e he rfl
    · rw [habout] at ht
      obtain ⟨hlt, hun⟩ := hcare.about text ht
      exact ⟨hnext ▸ hlt, fun hack => (split hack).elim hun fun hnew => (hb hnew).1 ht⟩
  · obtain ⟨x, hx', htext, hstay, htold⟩ := hdirects nr x' hx
    obtain ⟨hlt, hold⟩ := h.directs nr x hx'
    refine ⟨by rw [htext, hnext]; exact hlt, fun hack => ?_⟩
    rw [htext] at hack
    exact (split hack).elim (fun hacked => hstay (hold hacked)) htold

theorem Quiet.ack (h : Quiet w) {recipient : String} {ref : MsgId} {now : Time}
    (hok : w.OnTime (.ack recipient ref now)) : Quiet (w.step L (.ack recipient ref now)) := by
  cases hin : w.daemon.inTime recipient ref with
  | false =>
      obtain ⟨room, hstep⟩ := Daemon.ack_late now hin
      simp only [World.step, Daemon.act, hstep]
      split
      · rename_i hsent
        have hon := fun {text : Text} (hn : w.News ref text) =>
          hok (by rw [Daemon.confirms, hsent, Bool.or_true]) text hn.1 hn.2
        refine h.confirmed ref rfl rfl rfl (fun text hn => (hon hn).2.1) (fun e he => ?_)
          (fun r wait hr => ⟨wait, hr, rfl, rfl⟩) fun nr x hx => ?_
        · refine ⟨he, id, fun hn => ?_⟩
          have := ((hon hn).1 e he rfl).1
          rw [hin] at this
          cases this
        · refine ⟨x, hx, rfl, id, fun hn => ?_⟩
          have := ((hon hn).2.2 (nr, x) (OrdMap.get_eq_some.mp hx) rfl).1
          rw [hin] at this
          cases this
      · exact h.silent [] rfl (List.forall_mem_nil _) le_rfl (fun q e he => .inl he) h.entries
          (fun r wait hr => .inl hr) fun nr x hx => .inl hx
  | true =>
      obtain ⟨room, hstep⟩ := Daemon.ack_inTime now hin
      simp only [World.step, Daemon.act, hstep]
      have hon := fun {text : Text} (hn : w.News ref text) =>
        hok (by rw [Daemon.confirms, hin, Bool.true_or]) text hn.1 hn.2
      have hflushes : (((w.daemon.setRoom recipient room).answer ref true).heard ref now).flushes =
          (w.daemon.answer ref true).flushes := Daemon.flushes_heard ..
      have hdirects : (((w.daemon.setRoom recipient room).answer ref true).heard ref now).directs =
          (w.daemon.answer ref true).directs := Daemon.directs_heard ..
      refine h.confirmed ref rfl (Daemon.next_heard ..) (Daemon.cells_heard ..)
        (fun text hn => (hon hn).2.1) (fun e he => ?_) (fun r wait' hr => ?_) fun nr x' hx => ?_
      · obtain ⟨hold, hne⟩ := Daemon.mem_heard he
        refine ⟨hold, fun hl => hl.answer hflushes, fun hn => ?_⟩
        obtain hfl | hconf := ((hon hn).1 e hold rfl).2
        · -- the entry is in flight under the message, so it is out
          obtain ⟨f, hf, hq⟩ := (Option.any_eq_true _ _).mp hfl
          exact absurd (of_decide_eq_true hq).symm (hne f hf)
        · obtain ⟨wait, hwait, hc⟩ := (Option.any_eq_true _ _).mp hconf
          cases wait with
          | confirming q id rest =>
              simp only [Wait.confirms, decide_eq_true_eq] at hc
              obtain ⟨rfl, rfl⟩ := hc
              refine ⟨id, rest, ?_⟩
              dsimp only
              rw [hflushes, Daemon.answer, OrdMap.get_map, hwait, Option.map_some, Wait.answer, if_pos rfl]
          | resending | resent | entering | settled | saving => cases hc
      · rw [hflushes, Daemon.answer, OrdMap.get_map] at hr
        obtain ⟨wait, hwait, rfl⟩ := Option.map_eq_some_iff.mp hr
        exact ⟨wait, hwait, Wait.ahead_answer .., Wait.about_answer ..⟩
      · rw [hdirects, Daemon.answer, OrdMap.get_map] at hx
        obtain ⟨x, hx', rfl⟩ := Option.map_eq_some_iff.mp hx
        refine ⟨x, hx', rfl, ?_, fun hn => ?_⟩
        · rintro ⟨id, hs⟩
          exact ⟨id, by rw [hs]; rfl⟩
        · have hc := ((hon hn).2.2 (nr, x) (OrdMap.get_eq_some.mp hx') rfl).2
          cases hs : x.sending with
          | confirming id =>
              rw [hs] at hc
              obtain rfl : id = ref := of_decide_eq_true hc
              exact ⟨id, by rw [Sending.answer, if_pos rfl]⟩
          | entering | settled =>
              rw [hs] at hc
              cases hc

theorem Quiet.step (h : Quiet w) {a : Event} (hfair : w.Fair a) (hok : w.OnTime a) : Quiet (w.step L a) := by
  cases a with
  | submit recipient body key ttlMs now => exact h.submit
  | presence recipient online now =>
      obtain ⟨l, heq | ⟨hnone, hf⟩⟩ := Daemon.flushed_presence (d := w.daemon) recipient online now
      · simp only [World.step, Daemon.act, heq]
        exact h.silent [] rfl (List.forall_mem_nil _) le_rfl (fun q e he => .inl he) h.entries
          (fun r wait hr => .inl hr) fun nr x hx => .inl hx
      · exact h.flushed rfl hf (fun q id rest hs => by rw [hnone] at hs; cases hs) (h.due hnone)
  | tick now => exact h.tick
  | flush recipient now =>
      obtain heq | ⟨hnone, hf⟩ := Daemon.flushed_flush (d := w.daemon) recipient now
      · simpa only [World.step, Daemon.act, heq, List.nil_append] using h
      · exact h.flushed rfl hf (fun q id rest hs => by rw [hnone] at hs; cases hs) (h.due hnone)
  | entered recipient newId m => exact h.entered hfair
  | absent recipient => exact h.absent
  | resumed recipient now => exact h.resumed
  | failed recipient => exact h.failed
  | enteredDirect nr newId m => exact h.enteredDirect hfair
  | resumedDirect nr now => exact h.resumedDirect
  | failedDirect nr => exact h.failedDirect
  | timeout id => exact h.timeout
  | ack recipient ref now => exact h.ack hok
  | room recipient op =>
      exact h.silent [] rfl (List.forall_mem_nil _) le_rfl (fun q e he => .inl he) h.entries
        (fun r wait hr => .inl hr) fun nr x hx => .inl hx

theorem Quiet.start (l : Loaded) (online : List String) (rooms : String → Room.Outbox String) :
    Quiet (World.start l online rooms) := by
  have silent : ∀ n ∈ (World.start l online rooms).notes, n.id = none := by
    simp [World.start, Note.id]
  have no_ack : ∀ text, ¬ Acked (World.start l online rooms).notes text := by
    intro text hack
    obtain ⟨id, entry, hsent, -⟩ := acked_iff.mp hack
    exact absurd (silent _ hsent) (by simp [Note.id])
  exact {
    once := by
      have h := once_silent silent (show Once [] from trivial)
      rwa [List.append_nil] at h
    sent := fun id text entry hs => absurd (silent _ hs) (by simp [Note.id])
    cells := fun q e he => by
      obtain ⟨x, hx, heq⟩ := List.mem_map.mp (OrdMap.get_eq_some.mp he)
      exact (Prod.mk.inj heq).2 ▸ l.texts x hx
    entries := fun e _ hack => absurd hack (no_ack _)
    flushes := .empty
    directs := .empty }

/-- In every run whose confirmations come in time nothing is sent as new that is confirmed. -/
theorem sends_once (L : Budget) (l : Loaded) (online : List String) (rooms : String → Room.Outbox String) (w : World)
    (h : Reach (World.step L) (fun w a => w.Fair a ∧ w.OnTime a) (World.start l online rooms) w) : Once w.notes :=
  (h.invariant (Quiet.start l online rooms) fun _ _ hq hok => hq.step hok.1 hok.2).once

/-- An alert of an admin who comes online is sent, and confirmed while the flush waits; another is sent at once, nobody
confirms it in 20 s, and the confirmation that comes then takes it out of the queue. -/
def confirmedInTime : List Event :=
  [.submit "admin" "disk 90%" none none 1000, .presence "admin" true 2000, .entered "admin" [1] ⟨2001, true, false⟩,
    .ack "admin" [1] 2100, .resumed "admin" 2101, .resumed "admin" 2102, .submit "admin" "disk 95%" none none 3000,
    .enteredDirect 1 [2] ⟨3001, true, false⟩, .timeout [2], .resumedDirect 1 23001, .ack "admin" [2] 24000,
    .flush "admin" 90000]

theorem sample_sends_once :
    Once (confirmedInTime.foldl (World.step {}) fresh).notes :=
  sends_once {} _ _ _ _ (Admits.reach .start (by decide +kernel))

/-- The room gives a message up, the confirmation comes after that, and ten minutes later the queue takes the message
for lost. -/
def confirmedLate : List Event :=
  [.submit "admin" "disk 90%" none none 1000, .presence "admin" true 2000, .entered "admin" [1] ⟨2001, true, false⟩,
    .timeout [1], .resumed "admin" 22001, .room "admin" (.fire 1 ⟨62001, true, false⟩),
    .room "admin" (.fire 2 ⟨70001, true, false⟩), .ack "admin" [1] 71000, .flush "admin" 700000,
    .entered "admin" [9] ⟨700000, true, false⟩, .resumed "admin" 700000, .entered "admin" [2] ⟨700001, true, false⟩]

/-- A late confirmation is heard by nobody, and the text goes out again. -/
theorem late_sent_again : ¬ ∀ (L : Budget) (l : Loaded) (online : List String) (rooms : String → Room.Outbox String)
    (w : World), Reach (World.step L) World.Fair (start l online rooms) w → Once w.notes := by
  intro h
  have hrun : Reach (World.step {}) World.Fair fresh (confirmedLate.foldl (World.step {}) fresh) :=
    Admits.reach .start (by decide)
  exact absurd (h {} _ _ _ _ hrun) (by decide)

end World

end EncedoChat.Queue
