import EncedoChat.Lib.Run
import EncedoChat.Queue.Daemon

/-!
# No text the queue accepted is silently gone

A confirmation takes an entry out by its name, whatever text is in it by then; the texts are followed through the merges.
-/

namespace EncedoChat.Queue

open Room (Time MsgId Moment Budget)

/-- `P` of a text, or of a newer one of the same recipient and key. -/
inductive Followed (notes : List Note) (P : Text → String → Option String → Prop) :
    Text → String → Option String → Prop
  | self {text : Text} {recipient : String} {key : Option String} : P text recipient key →
      Followed notes P text recipient key
  | newer {text newer : Text} {recipient : String} {key : Option String} :
      Note.accepted newer recipient key ∈ notes → text.nr < newer.nr → (named key).isSome →
      Followed notes P newer recipient key → Followed notes P text recipient key

theorem Followed.mono {notes : List Note} {P Q : Text → String → Option String → Prop} {text : Text}
    {recipient : String} {key : Option String} (h : Followed notes P text recipient key)
    (hle : ∀ text recipient key, P text recipient key → Q text recipient key) : Followed notes Q text recipient key := by
  induction h with
  | self h => exact .self (hle _ _ _ h)
  | newer ha hlt hk _ ih => exact .newer ha hlt hk ih

namespace World

/-- The text waits in an entry. -/
def Held (w : World) (text : Text) (recipient : String) (key : Option String) : Prop :=
  ∃ e ∈ w.daemon.outbox.all, e.text = text ∧ e.recipient = recipient ∧ e.key = key

/-- A message that nobody confirmed carries the text, for an entry that waits. -/
def Carried (w : World) (text : Text) : Prop :=
  ∃ e ∈ w.daemon.outbox.all, ∃ id entry, Note.sent id text entry ∈ w.notes ∧ Note.confirmed id ∉ w.notes ∧
    (entry = some e.qid ∨ ∃ f, w.daemon.inflight.get id = some f ∧ f.qid = e.qid)

/-- Where a text that was accepted may be. -/
def Safe (w : World) (text : Text) (recipient : String) (key : Option String) : Prop :=
  Acked w.notes text ∨ w.Held text recipient key ∨ w.Carried text ∨ Note.reported text ∈ w.notes

/-- Every text that was accepted, or a newer one in its place, is somewhere. -/
def LosesNothing (w : World) : Prop :=
  ∀ text recipient key, Note.accepted text recipient key ∈ w.notes → Followed w.notes w.Safe text recipient key

/-- The name of a new entry is new. -/
def NewName (w : World) (now : Time) : Prop := w.daemon.outbox.cells.get ⟨now, w.daemon.outbox.seq + 1⟩ = none

/-- What is taken out of the queue on a confirmation holds a text that was confirmed. A submission that waited
for its confirmation replaces no newer text when it is queued, and drops none. -/
def Meets (w : World) : Event → Prop
  | .submit _ _ _ _ now => w.NewName now
  | .resumed recipient _ =>
    match w.daemon.flushes.get recipient with
    | some (.settled q _ _ true) => ∀ e ∈ w.daemon.outbox.all, e.qid = q → Acked w.notes e.text
    | _ => True
  | .resumedDirect nr _ =>
    match w.daemon.directs.get nr with
    | some x =>
      match x.sending with
      | .settled _ false =>
        w.NewName x.now ∧
        (∀ e ∈ w.daemon.outbox.same x.recipient x.key, e.text.nr < x.text.nr ∨ Acked w.notes e.text) ∧
        ∀ e ∈ (w.daemon.outbox.add x.recipient x.text x.now x.ttlMs x.key).2.dropped, Acked w.notes e.text
      | _ => True
    | none => True
  | .ack recipient ref _ =>
    w.daemon.inTime recipient ref = true → ∀ f ∈ w.daemon.inflight.get ref, ∀ e ∈ w.daemon.outbox.all,
      e.qid = f.qid → Acked (.confirmed ref :: w.notes) e.text
  | _ => True

instance (w : World) (now : Time) : Decidable (w.NewName now) := by
  unfold NewName
  infer_instance

instance (w : World) (a : Event) : Decidable (w.Meets a) := by
  unfold Meets
  split
  · infer_instance
  · split <;> infer_instance
  · split
    · split <;> infer_instance
    · infer_instance
  · infer_instance
  · infer_instance

/-! ## A text that is accepted is followed -/

/-- Where a text is, as long as no message has to answer for it. -/
def Kept (w : World) (text : Text) (recipient : String) (key : Option String) : Prop :=
  Acked w.notes text ∨ w.Held text recipient key ∨ Note.reported text ∈ w.notes

/-- What waits after some steps of what waited before. -/
def Passes (w w' : World) : Prop :=
  ∀ e ∈ w.daemon.outbox.all, Followed w'.notes w'.Kept e.text e.recipient e.key

theorem followed_next {w w' : World} {more : List Note} {text : Text} {recipient : String} {key : Option String}
    (hnotes : w'.notes = more ++ w.notes) (hpass : Passes w w') (h : Followed w.notes w.Kept text recipient key) :
    Followed w'.notes w'.Kept text recipient key := by
  induction h with
  | self h =>
      obtain hack | ⟨e, he, rfl, rfl, rfl⟩ | hrep := h
      · exact .self (.inl (hnotes ▸ hack.mono more))
      · exact hpass e he
      · exact .self (.inr (.inr (hnotes ▸ List.mem_append_right _ hrep)))
  | newer ha hlt hk _ ih => exact .newer (hnotes ▸ List.mem_append_right _ ha) hlt hk ih

end World

/-- A submission that has gone out was seen to go out; of one that is confirmed that was seen too. -/
def Direct.Told (notes : List Note) (x : Direct) : Prop :=
  match x.sending with
  | .entering => True
  | .confirming id => id ∈ carriers notes x.text
  | .settled id ok => id ∈ carriers notes x.text ∧ (ok = true → Note.confirmed id ∈ notes)

theorem Direct.Told.mono {notes : List Note} {x : Direct} (more : List Note) (h : x.Told notes) :
    x.Told (more ++ notes) := by
  have grow : ∀ {id}, id ∈ carriers notes x.text → id ∈ carriers (more ++ notes) x.text := fun hid => by
    obtain ⟨entry, hsent⟩ := mem_carriers.mp hid
    exact mem_carriers.mpr ⟨entry, List.mem_append_right _ hsent⟩
  rw [Told] at h ⊢
  cases hs : x.sending with
  | entering => trivial
  | confirming id =>
      rw [hs] at h
      exact grow h
  | settled id ok =>
      rw [hs] at h
      exact ⟨grow h.1, fun hok => List.mem_append_right _ (h.2 hok)⟩

/-- It hears of the confirmation of its message, or that none came. -/
theorem Direct.Told.answer {notes : List Note} {x : Direct} (h : x.Told notes) {id : MsgId} {ok : Bool}
    (hconf : ok = true → Note.confirmed id ∈ notes) : Direct.Told notes { x with sending := x.sending.answer id ok } := by
  rw [Told] at h ⊢
  cases hs : x.sending with
  | entering => trivial
  | settled id' ok' =>
      rw [hs] at h
      exact h
  | confirming id' =>
      rw [hs] at h
      simp only [Sending.answer]
      by_cases hid : id' = id
      · subst hid
        rw [if_pos rfl]
        exact ⟨h, hconf⟩
      · rw [if_neg hid]
        exact h

namespace World

/-- What was submitted, and is not in the future. -/
def Known (w : World) (x : Direct) : Prop := x.text.nr < w.daemon.next ∧ x.Told w.notes

structure Inv (w : World) : Prop where
  below : ∀ e ∈ w.daemon.outbox.all, e.text.nr < w.daemon.next
  directs : w.daemon.directs.All w.Known
  kept : ∀ text recipient key, Note.accepted text recipient key ∈ w.notes →
    Followed w.notes w.Kept text recipient key

variable {w w' : World}

theorem Known.mono {x : Direct} (more : List Note) (h : w.Known x) (hnotes : w'.notes = more ++ w.notes)
    (hle : w.daemon.next ≤ w'.daemon.next) : w'.Known x :=
  ⟨h.1.trans_le hle, hnotes ▸ h.2.mono more⟩

theorem Inv.move (h : Inv w) (more : List Note) (hnotes : w'.notes = more ++ w.notes)
    (hle : w.daemon.next ≤ w'.daemon.next)
    (hbelow : ∀ e ∈ w'.daemon.outbox.all, e ∈ w.daemon.outbox.all ∨ e.text.nr < w'.daemon.next)
    (hdirects : w'.daemon.directs.All w'.Known) (hpass : Passes w w')
    (hnew : ∀ text recipient key, Note.accepted text recipient key ∈ more →
      Followed w'.notes w'.Kept text recipient key) : Inv w' where
  below := fun e he => (hbelow e he).elim (fun hold => (h.below e hold).trans_le hle) id
  directs := hdirects
  kept := fun text recipient key ha => by
    rw [hnotes, List.mem_append] at ha
    exact ha.elim (hnew text recipient key) fun hold => followed_next hnotes hpass (h.kept text recipient key hold)

/-- A step that only takes out what is confirmed or reported. -/
theorem Inv.removed (h : Inv w) (more : List Note) (hnotes : w'.notes = more ++ w.notes)
    (hle : w.daemon.next ≤ w'.daemon.next) (hdirects : w'.daemon.directs.All w'.Known)
    (hsub : ∀ e ∈ w'.daemon.outbox.all, e ∈ w.daemon.outbox.all)
    (hgone : ∀ e ∈ w.daemon.outbox.all, e ∈ w'.daemon.outbox.all ∨ Acked w'.notes e.text ∨
      Note.reported e.text ∈ w'.notes)
    (hnew : ∀ text recipient key, Note.accepted text recipient key ∈ more → Acked w'.notes text) : Inv w' := by
  refine h.move more hnotes hle (fun e he => .inl (hsub e he)) hdirects ?_ fun text recipient key ha =>
    .self (.inl (hnew text recipient key ha))
  intro e he
  obtain hin | hack | hrep := hgone e he
  · exact .self (.inr (.inl ⟨e, hin, rfl, rfl, rfl⟩))
  · exact .self (.inl hack)
  · exact .self (.inr (.inr hrep))

/-- A step that leaves the queue as it is. -/
theorem Inv.still (h : Inv w) (more : List Note) (hnotes : w'.notes = more ++ w.notes)
    (hle : w.daemon.next ≤ w'.daemon.next) (hout : w'.daemon.outbox = w.daemon.outbox)
    (hdirects : w'.daemon.directs.All w'.Known)
    (hnew : ∀ text recipient key, Note.accepted text recipient key ∈ more → Acked w'.notes text) : Inv w' :=
  h.removed more hnotes hle hdirects (fun _ he => hout ▸ he) (fun _ he => .inl (hout ▸ he)) hnew

/-- A flush goes on. -/
theorem Inv.flushed (h : Inv w) {recipient : String} {l : List Qid} (more : List Note)
    (hnotes : w'.notes = more ++ w.notes) (hf : Daemon.Flushed recipient l w.daemon w'.daemon)
    (hnew : ∀ text recipient key, Note.accepted text recipient key ∉ more) : Inv w' := by
  refine h.still more hnotes hf.next.ge hf.outbox (fun nr x hx => ?_) fun t r k ha => (hnew t r k ha).elim
  rw [hf.directs] at hx
  exact (h.directs nr x hx).mono more hnotes hf.next.ge

/-- A text is put into the queue: it may go into an entry of its key with an older text, and what the cap drops for
it is reported or confirmed. -/
theorem Inv.added (h : Inv w) {recipient : String} {text : Text} {now : Time} {ttlMs : Option Time}
    {key : Option String} (more : List Note) (hnotes : w'.notes = more ++ w.notes)
    (hle : w.daemon.next ≤ w'.daemon.next)
    (hout : w'.daemon.outbox = (w.daemon.outbox.add recipient text now ttlMs key).1)
    (hdirects : w'.daemon.directs.All w'.Known) (hname : w.NewName now) (hlt : text.nr < w'.daemon.next)
    (hsame : ∀ e, w.daemon.outbox.same recipient key = some e → e.text.nr < text.nr ∨ Acked w'.notes e.text)
    (hdrop : ∀ e ∈ (w.daemon.outbox.add recipient text now ttlMs key).2.dropped, Acked w'.notes e.text ∨
      Note.reported e.text ∈ w'.notes)
    (hnew : ∀ t r k, Note.accepted t r k ∈ more ↔ t = text ∧ r = recipient ∧ k = key) : Inv w' := by
  obtain ⟨x, hx, hentry⟩ := Outbox.add_placed w.daemon.outbox recipient text now ttlMs key
  have gone : ∀ {e : Entry}, e ∈ (w.daemon.outbox.add recipient text now ttlMs key).2.dropped →
      w'.Kept e.text e.recipient e.key := fun he => (hdrop _ he).imp_right .inr
  have new : w'.Kept text recipient key := by
    obtain hin | hdropped := hx.there
    · exact .inr (.inl ⟨x, hout ▸ hin, hx.text, hx.recipient, hx.key⟩)
    · rw [← hx.text, ← hx.recipient, ← hx.key]
      exact gone hdropped
  refine h.move more hnotes hle (fun e he => ?_) hdirects (fun e he => ?_) fun t r k ha => ?_
  · rw [hout] at he
    obtain rfl | hold := hx.old e he
    · exact .inr (hx.text ▸ hlt)
    · exact .inl hold
  · obtain hin | hdropped | hq := hx.kept e he
    · exact .self (.inr (.inl ⟨e, hout ▸ hin, rfl, rfl, rfl⟩))
    · exact .self (gone hdropped)
    · -- the entry the text went into: the text is newer than what it replaces
      have hs := Outbox.same_of_entry he hname (hq.trans hentry)
      obtain ⟨-, hrec, hkey⟩ := Outbox.same_eq_some hs
      obtain hold | hack := hsame e hs
      · rw [hrec, hkey]
        refine .newer ?_ hold (Outbox.named_of_same hs) (.self new)
        rw [hnotes]
        exact List.mem_append_left _ ((hnew ..).mpr ⟨rfl, rfl, rfl⟩)
      · exact .self (.inl hack)
  · obtain ⟨rfl, rfl, rfl⟩ := (hnew t r k).mp ha
    exact .self new

variable {L : Budget}

theorem Inv.submit (h : Inv w) {recipient body : String} {key : Option String} {ttlMs : Option Time} {now : Time}
    (hname : w.NewName now) : Inv (w.step L (.submit recipient body key ttlMs now)) := by
  let text : Text := ⟨body, w.daemon.next⟩
  by_cases hnow : recipient ∈ w.daemon.online ∧ w.daemon.outbox.throttled recipient key now = false ∧
      w.daemon.outbox.due recipient now = []
  · have hstep : w.daemon.submit recipient body key ttlMs now = ({ w.daemon with
        next := w.daemon.next + 1
        directs := w.daemon.directs.set text.nr ⟨recipient, text, key, ttlMs, now, .entering⟩ }, []) := by
      rw [Daemon.submit, if_pos hnow]
    simp only [step, Daemon.act, hstep]
    refine h.still [] rfl (Nat.le_succ _) rfl ?_ fun t r k ha => absurd ha List.not_mem_nil
    refine .set (fun nr x hx => ?_) _ ⟨Nat.lt_succ_self _, trivial⟩
    exact (h.directs nr x hx).mono [] rfl (Nat.le_succ _)
  · have hstep : w.daemon.submit recipient body key ttlMs now =
        ({ w.daemon with
          next := w.daemon.next + 1
          outbox := (w.daemon.outbox.add recipient text now ttlMs key).1 },
          .accepted text recipient key ::
            (w.daemon.outbox.add recipient text now ttlMs key).2.dropped.map (fun e => .reported e.text)) := by
      rw [Daemon.submit, if_neg hnow]
    simp only [step, Daemon.act, hstep]
    refine h.added (_ :: _) rfl (Nat.le_succ _) rfl (fun nr x hx => ?_) hname (Nat.lt_succ_self _)
      (fun e he => .inl (h.below e (Outbox.same_eq_some he).1)) (fun e he => .inr ?_) fun t r k => ?_
    · exact (h.directs nr x hx).mono _ rfl (Nat.le_succ _)
    · exact List.mem_append_left _ (List.mem_cons_of_mem _ (List.mem_map_of_mem he))
    · simp

theorem Inv.resumed (h : Inv w) {recipient : String} {now : Time} (hok : w.Meets (.resumed recipient now)) :
    Inv (w.step L (.resumed recipient now)) := by
  cases hw : w.daemon.flushes.get recipient with
  | none => simpa only [step, Daemon.act, Daemon.resumed_none now hw, List.nil_append] using h
  | some wait =>
      by_cases hset : ∃ q id rest, wait = .settled q id rest true
      · obtain ⟨q, id, rest, rfl⟩ := hset
        obtain ⟨o, hstep, -, hall⟩ := Daemon.resumed_settled now hw
        simp only [step, Daemon.act, hstep]
        refine h.removed [] rfl le_rfl h.directs (fun e he => ((hall e).mp he).1)
          (fun e he => ?_) fun t r k ha => absurd ha List.not_mem_nil
        by_cases hq : e.qid = q
        · rw [Meets, hw] at hok
          exact .inr (.inl (hok e he hq))
        · exact .inl ((hall e).mpr ⟨he, hq⟩)
      · obtain hsame | hf := Daemon.flushed_resumed now hw fun q id rest he => hset ⟨q, id, rest, he⟩
        · simpa only [step, Daemon.act, hsame, List.nil_append] using h
        · exact h.flushed [] rfl hf fun t r k ha => absurd ha List.not_mem_nil

theorem Inv.resumedDirect (h : Inv w) {nr : Nat} {now : Time} (hok : w.Meets (.resumedDirect nr now)) :
    Inv (w.step L (.resumedDirect nr now)) := by
  have same : w.daemon.resumedDirect nr now = (w.daemon, []) → Inv (w.step L (.resumedDirect nr now)) := by
    intro hs
    simpa only [step, Daemon.act, hs, List.nil_append] using h
  cases hx : w.daemon.directs.get nr with
  | none => exact same (by rw [Daemon.resumedDirect, hx])
  | some x =>
      obtain ⟨hlt, htold⟩ := h.directs nr x hx
      have fewer : ∀ {w' : World} {more : List Note}, w'.notes = more ++ w.notes →
          w'.daemon.directs = w.daemon.directs.delete nr → w'.daemon.next = w.daemon.next →
          w'.daemon.directs.All w'.Known := by
        intro w' more hnotes hd hn n y hy
        rw [hd] at hy
        exact (h.directs n y (OrdMap.get_delete_some hy).2).mono more hnotes hn.ge
      cases hs : x.sending with
      | entering => exact same (by rw [Daemon.resumedDirect, hx]; simp only [hs])
      | confirming id => exact same (by rw [Daemon.resumedDirect, hx]; simp only [hs])
      | settled id ok =>
          rw [Direct.Told, hs] at htold
          cases ok with
          | true =>
              have hstep : w.daemon.resumedDirect nr now = ({ w.daemon with
                  directs := w.daemon.directs.delete nr
                  outbox := w.daemon.outbox.went x.recipient x.key now }, [.accepted x.text x.recipient x.key]) := by
                rw [Daemon.resumedDirect, hx]
                simp only [hs, if_pos]
              have hall := Outbox.all_went (o := w.daemon.outbox) x.recipient x.key now
              simp only [step, Daemon.act, hstep]
              refine h.removed [.accepted x.text x.recipient x.key] rfl le_rfl (fewer rfl rfl rfl)
                (fun e he => hall ▸ he) (fun e he => .inl (hall.symm ▸ he)) fun t r k ha => ?_
              cases List.mem_singleton.mp ha
              exact Acked.mono [_] ⟨id, htold.1, htold.2 rfl⟩
          | false =>
              rw [Meets, hx] at hok
              simp only [hs] at hok
              obtain ⟨hname, hsame, hdrop⟩ := hok
              have hstep : w.daemon.resumedDirect nr now = ({ w.daemon with
                  directs := w.daemon.directs.delete nr
                  outbox := (w.daemon.outbox.add x.recipient x.text x.now x.ttlMs x.key).1 }.fly id
                    (w.daemon.outbox.add x.recipient x.text x.now x.ttlMs x.key).2.entry x.recipient now,
                  [.accepted x.text x.recipient x.key]) := by
                rw [Daemon.resumedDirect, hx]
                simp only [hs, Bool.false_eq_true, if_false]
              simp only [step, Daemon.act, hstep]
              refine h.added [.accepted x.text x.recipient x.key] rfl le_rfl rfl (fewer rfl rfl rfl) hname hlt
                (fun e he => (hsame e he).imp_right fun hack => hack.mono _)
                (fun e he => .inl ((hdrop e he).mono _)) fun t r k => ?_
              simp

theorem Inv.answered (h : Inv w) {id : MsgId} {ok : Bool} (more : List Note) (hnotes : w'.notes = more ++ w.notes)
    (hnext : w'.daemon.next = w.daemon.next) (hd : w'.daemon.directs = (w.daemon.answer id ok).directs)
    (hconf : ok = true → Note.confirmed id ∈ w'.notes) : w'.daemon.directs.All w'.Known := by
  intro nr x hx
  rw [hd, Daemon.answer, OrdMap.get_map] at hx
  obtain ⟨y, hy, rfl⟩ := Option.map_eq_some_iff.mp hx
  obtain ⟨hlt, htold⟩ := (h.directs nr y hy).mono more hnotes hnext.ge
  exact ⟨hlt, htold.answer hconf⟩

theorem Inv.ack (h : Inv w) {recipient : String} {ref : MsgId} {now : Time} (hok : w.Meets (.ack recipient ref now)) :
    Inv (w.step L (.ack recipient ref now)) := by
  cases hin : w.daemon.inTime recipient ref with
  | false =>
      obtain ⟨room, hstep⟩ := Daemon.ack_late now hin
      simp only [step, Daemon.act, hstep]
      refine h.still _ rfl le_rfl rfl (fun nr x hx => (h.directs nr x hx).mono _ rfl le_rfl) fun t r k ha => ?_
      split at ha <;> simp at ha
  | true =>
      obtain ⟨room, hstep⟩ := Daemon.ack_inTime now hin
      simp only [step, Daemon.act, hstep]
      have hnext : (((w.daemon.setRoom recipient room).answer ref true).heard ref now).next = w.daemon.next :=
        Daemon.next_heard ..
      have hdirects : (((w.daemon.setRoom recipient room).answer ref true).heard ref now).directs.All
          (Known ⟨((w.daemon.setRoom recipient room).answer ref true).heard ref now, .confirmed ref :: w.notes⟩) :=
        h.answered [.confirmed ref] rfl hnext (Daemon.directs_heard ..) fun _ => List.mem_cons_self ..
      obtain hsame | ⟨f, hf, e, he, hq, hout⟩ :=
        ((w.daemon.setRoom recipient room).answer ref true).heard_outbox ref now
      · exact h.still [.confirmed ref] rfl hnext.ge hsame hdirects fun t r k ha => by simp at ha
      · refine h.removed [.confirmed ref] rfl hnext.ge hdirects (fun x hx => ?_) (fun x hx => ?_)
          fun t r k ha => by simp at ha
        · exact (Outbox.mem_all_delivered.mp (hout ▸ hx)).1
        · by_cases hqx : x.qid = e.qid
          · exact .inr (.inl (hok hin f hf x hx (hqx.trans hq)))
          · exact .inl (hout ▸ Outbox.mem_all_delivered.mpr ⟨hx, hqx⟩)

theorem Inv.tick (h : Inv w) {now : Time} : Inv (w.step L (.tick now)) := by
  refine h.removed ((w.daemon.outbox.expire now).2.map (fun e => .reported e.text)) rfl le_rfl
    (fun nr x hx => (h.directs nr x hx).mono _ rfl le_rfl) (fun e he => (Outbox.mem_all_keep.mp he).1)
    (fun e he => ?_) fun t r k ha => ?_
  · by_cases hexp : now < e.expires
    · exact .inl (Outbox.mem_all_keep.mpr ⟨he, by simpa using hexp⟩)
    · right; right
      apply List.mem_append_left
      apply List.mem_map_of_mem
      exact List.mem_filter.mpr ⟨he, by simpa using hexp⟩
  · simp at ha

theorem Inv.enteredDirect (h : Inv w) {nr : Nat} {newId : MsgId} {m : Moment} :
    Inv (w.step L (.enteredDirect nr newId m)) := by
  have same : w.daemon.enteredDirect L nr newId m = (w.daemon, []) → Inv (w.step L (.enteredDirect nr newId m)) := by
    intro hs
    simpa only [World.step, Daemon.act, hs, List.nil_append] using h
  cases hx : w.daemon.directs.get nr with
  | none => exact same (by rw [Daemon.enteredDirect, hx])
  | some x =>
      cases hs : x.sending with
      | confirming id => exact same (by rw [Daemon.enteredDirect, hx]; simp only [hs])
      | settled id ok => exact same (by rw [Daemon.enteredDirect, hx]; simp only [hs])
      | entering =>
          simp only [World.step, Daemon.act, Daemon.enteredDirect, hx, hs]
          refine h.still [.sent newId x.text none] rfl le_rfl rfl ?_ fun t r k ha => by simp at ha
          refine .set (fun n y hy => ?_) _ ⟨(h.directs nr x hx).1, ?_⟩
          · exact (h.directs n y hy).mono [.sent newId x.text none] rfl le_rfl
          exact mem_carriers.mpr ⟨none, List.mem_cons_self ..⟩

theorem Inv.failedDirect (h : Inv w) {nr : Nat} : Inv (w.step L (.failedDirect nr)) := by
  refine h.still [] rfl ?_ ?_ ?_ fun t r k ha => absurd ha List.not_mem_nil
  all_goals simp only [World.step, Daemon.act, Daemon.failedDirect]
  · split
    · exact le_rfl
    · split <;> exact le_rfl
  · split
    · rfl
    · split <;> rfl
  · have old : w.daemon.directs.All (World.Known ⟨w.daemon, w.notes⟩) := h.directs
    split
    · exact old
    · split
      · exact old.delete nr
      · exact old

theorem Inv.step (h : Inv w) {a : Event} (hok : w.Meets a) : Inv (w.step L a) := by
  have same : (∃ recipient, w.daemon.flushes.get recipient = none ∧ w.daemon.act L a = (w.daemon, [])) →
      Inv (w.step L a) := by
    rintro ⟨-, -, hs⟩
    simpa only [World.step, hs, List.nil_append] using h
  cases a with
  | submit recipient body key ttlMs now => exact h.submit hok
  | presence recipient online now =>
      obtain ⟨l, heq | ⟨-, hf⟩⟩ := Daemon.flushed_presence (d := w.daemon) recipient online now
      · simp only [World.step, Daemon.act, heq]
        exact h.still [] rfl le_rfl rfl h.directs fun t r k ha => absurd ha List.not_mem_nil
      · exact h.flushed [] rfl hf fun t r k ha => absurd ha List.not_mem_nil
  | tick now => exact h.tick
  | flush recipient now =>
      obtain heq | ⟨-, hf⟩ := Daemon.flushed_flush (d := w.daemon) recipient now
      · simpa only [World.step, Daemon.act, heq, List.nil_append] using h
      · exact h.flushed [] rfl hf fun t r k ha => absurd ha List.not_mem_nil
  | entered recipient newId m =>
      cases hw : w.daemon.flushes.get recipient with
      | none => exact same ⟨recipient, hw, by rw [Daemon.act, Daemon.entered, hw]⟩
      | some wait =>
          refine h.flushed _ rfl (Daemon.flushed_entered newId m hw) fun t r k ha => ?_
          simp only [Daemon.act, Daemon.entered, hw] at ha
          split at ha <;> simp at ha
  | absent recipient =>
      cases hw : w.daemon.flushes.get recipient with
      | none => exact same ⟨recipient, hw, by rw [Daemon.act, Daemon.absent, hw]⟩
      | some wait => exact h.flushed [] rfl (Daemon.flushed_absent hw) fun t r k ha => absurd ha List.not_mem_nil
  | resumed recipient now => exact h.resumed hok
  | failed recipient =>
      cases hw : w.daemon.flushes.get recipient with
      | none => exact same ⟨recipient, hw, by rw [Daemon.act, Daemon.failed, hw]⟩
      | some wait => exact h.flushed [] rfl (Daemon.flushed_failed hw) fun t r k ha => absurd ha List.not_mem_nil
  | enteredDirect nr newId m => exact h.enteredDirect
  | resumedDirect nr now => exact h.resumedDirect hok
  | failedDirect nr => exact h.failedDirect
  | timeout id =>
      refine h.still [] rfl le_rfl rfl ?_ fun t r k ha => absurd ha List.not_mem_nil
      exact h.answered [] rfl rfl rfl fun hok => absurd hok Bool.false_ne_true
  | ack recipient ref now => exact h.ack hok
  | room recipient op => exact h.still [] rfl le_rfl rfl h.directs fun t r k ha => absurd ha List.not_mem_nil

theorem Inv.start (l : Loaded) (online : List String) (rooms : String → Room.Outbox String) :
    Inv (World.start l online rooms) where
  below := fun e he => l.texts e (mem_all_start.mp he)
  directs := .empty
  kept := fun text recipient key ha => by
    obtain ⟨e, he, hn⟩ := List.mem_map.mp ha
    cases hn
    exact .self (.inr (.inl ⟨e, mem_all_start.mpr he, rfl, rfl, rfl⟩))

/-- In every run whose steps meet the condition every text that was accepted is accounted for in every state. -/
theorem loses_nothing (L : Budget) (l : Loaded) (online : List String) (rooms : String → Room.Outbox String) (w : World)
    (h : Reach (World.step L) (fun w a => w.Fair a ∧ w.Meets a) (World.start l online rooms) w) : w.LosesNothing := by
  have inv : Inv w := h.invariant (Inv.start l online rooms) fun _ _ hi hok => hi.step hok.2
  intro text recipient key ha
  refine (inv.kept text recipient key ha).mono ?_
  rintro t r k (hack | hheld | hrep)
  · exact .inl hack
  · exact .inr (.inl hheld)
  · exact .inr (.inr (.inr hrep))

/-- The second alert of a key takes the first one's place, goes out and is confirmed; the third waits its turn. -/
def merged : List Event :=
  [.submit "admin" "disk 90%" (some "disk") none 1000, .submit "admin" "disk 95%" (some "disk") none 1500,
    .presence "admin" true 2000, .entered "admin" [1] ⟨2001, true, false⟩, .ack "admin" [1] 2100,
    .resumed "admin" 2101, .resumed "admin" 2102, .submit "admin" "disk 99%" (some "disk") none 3000]

theorem sample_loses_nothing : (merged.foldl (World.step {}) fresh).LosesNothing :=
  loses_nothing {} _ _ _ _ (Admits.reach .start (by decide))

/-- The second alert comes while the first is under way; the confirmation of the first takes the entry out. -/
def overtaken : List Event :=
  [.submit "admin" "disk 90%" (some "disk") none 1000, .presence "admin" true 2000,
    .entered "admin" [1] ⟨2001, true, false⟩, .submit "admin" "disk 95%" (some "disk") none 2050,
    .ack "admin" [1] 2100, .resumed "admin" 2101]

/-- A text merged into an entry whose older text is under way goes with the confirmation of the older one. -/
theorem merged_text_lost : ¬ ∀ (L : Budget) (l : Loaded) (online : List String) (rooms : String → Room.Outbox String)
    (w : World), Reach (World.step L) World.Fair (start l online rooms) w → w.LosesNothing := by
  intro h
  have hrun : Reach (World.step {}) World.Fair fresh (overtaken.foldl (World.step {}) fresh) :=
    Admits.reach .start (by decide)
  have hnotes : (overtaken.foldl (World.step {}) fresh).notes =
      [.confirmed [1], .accepted ⟨"disk 95%", 1⟩ "admin" (some "disk"), .sent [1] ⟨"disk 90%", 0⟩ (some ⟨1000, 1⟩),
        .accepted ⟨"disk 90%", 0⟩ "admin" (some "disk")] := by
    decide
  have hall : (overtaken.foldl (World.step {}) fresh).daemon.outbox.all = [] := by
    decide
  have hsafe := h {} _ _ _ _ hrun ⟨"disk 95%", 1⟩ "admin" (some "disk") (by rw [hnotes]; simp)
  rw [hnotes] at hsafe
  cases hsafe with
  | self hs =>
      obtain hack | ⟨e, he, -⟩ | ⟨e, he, -⟩ | hrep := hs
      · rw [hnotes] at hack
        exact absurd hack (by decide)
      · simp [hall] at he
      · simp [hall] at he
      · simp [hnotes] at hrep
  | newer ha hlt =>
      simp at ha
      obtain rfl | rfl := ha <;> exact absurd hlt (by decide)

end World

end EncedoChat.Queue
