import EncedoChat.Lib.Serial
import EncedoChat.Eh2.Lemmas.Invariant

/-!
# Overlapping calls

Both ratchets take calls without waiting for one another, each through its queue (`serial` of
`eh2/ratchet.ts`). Between two awaits of a call anything else may run.
-/

namespace EncedoChat.Eh2

variable {S : Suite} {o : Opts}

inductive Call (S : Suite) where
  | encrypt (d : EncryptDraws S) (pt : Bytes)
  | decrypt (d : DecryptDraws S) (seen : List (Sealed S)) (frame : Bytes)

inductive Answer (S : Suite) where
  | frame (r : Option (Sealed S))
  | plaintext (r : Except Refusal Bytes)

namespace Call

/-- What the call does when nothing runs in between. -/
def exec (o : Opts) (X : Role) : Call S → Ratchet S → Ratchet S × Answer S
  | .encrypt d pt, s => let r := s.encrypt o X d pt; (r.1, .frame r.2)
  | .decrypt d seen frame, s => let r := s.decrypt o (openIn seen) d frame; (r.1, .plaintext r.2)

def act (X : Role) : Call S → Act S
  | .encrypt d pt => .encrypt X d pt
  | .decrypt d seen frame => .decrypt X d seen frame

/-- The draws of the call are fresh, and the AEAD was asked against frames sealed by now. -/
def Fits (sealed : List (Sealed S)) (drawn : List Pub) : Call S → Prop
  | .encrypt d _ => S.pub d.newDh ∉ drawn
  | .decrypt _ seen _ => seen ⊆ sealed

end Call

structure Duplex (S : Suite) where
  obj : Role → Serial (Call S) (Ratchet S) (Answer S)
  sealed : List (Sealed S)
  opened : List Opened
  drawn : List Pub

inductive Turn (S : Suite) where
  | issue (X : Role) (c : Call S)
  | turn (X : Role)

namespace Duplex

def start (hs : Session S) (now : Role → Time) : Duplex S :=
  ⟨fun X => .idle (ratchetFrom (hs.result X) (now X)), [], [], [S.pub hs.ekI, S.pub hs.ekR]⟩

/-- The caller gets its answer. -/
def settle (m : Duplex S) (X : Role) : Call S → Answer S → Duplex S
  | .encrypt d _, .frame r => { m with sealed := r.toList ++ m.sealed, drawn := S.pub d.newDh :: m.drawn }
  | .decrypt _ _ frame, .plaintext r =>
    { m with opened := r.toOption.toList.map (⟨X, frame, ·⟩) ++ m.opened }
  | _, _ => m

def act (prog : Role → Call S → Prog (Ratchet S) (Answer S)) (m : Duplex S) : Turn S → Duplex S
  | .issue X c => { m with obj := Function.update m.obj X ((m.obj X).issue c) }
  | .turn X =>
    let t := (m.obj X).turn (prog X)
    let m := { m with obj := Function.update m.obj X t.1 }
    match t.2 with
    | none => m
    | some (c, r) => m.settle X c r

def Ok (m : Duplex S) : Turn S → Prop
  | .issue _ _ => True
  | .turn X => (m.obj X).settling.elim True fun c => c.Fits m.sealed m.drawn

/-- The settled calls, one after another, lead where the objects are. -/
structure Follows (o : Opts) (m : Duplex S) (w : World S) : Prop where
  obj : ∀ X, (m.obj X).From (Call.exec o X) (w.side X)
  sealed : m.sealed = w.sealed
  opened : m.opened = w.opened
  drawn : m.drawn = w.drawn

variable {m : Duplex S} {w : World S} {prog : Role → Call S → Prog (Ratchet S) (Answer S)}

theorem Follows.settle {X : Role} {c : Call S} {q : Serial (Call S) (Ratchet S) (Answer S)}
    (h : Follows o m w) (hq : q.From (Call.exec o X) (c.exec o X (w.side X)).1) :
    Follows o ({ m with obj := Function.update m.obj X q }.settle X c (c.exec o X (w.side X)).2)
      (w.act o (c.act X)) := by
  have hobj : ∀ s Y, q.From (Call.exec o X) s →
      (Function.update m.obj X q Y).From (Call.exec o Y) (Function.update w.side X s Y) := by
    intro s Y hs
    by_cases hY : Y = X
    · subst hY; simpa using hs
    · simpa [hY] using h.obj Y
  cases c with
  | encrypt d pt =>
      exact ⟨fun Y => hobj _ Y hq, by simp only [Duplex.settle, Call.exec, World.act, Call.act, h.sealed],
        h.opened, by simp only [Duplex.settle, Call.exec, World.act, Call.act, h.drawn]⟩
  | decrypt d seen frame =>
      exact ⟨fun Y => hobj _ Y hq, h.sealed,
        by simp only [Duplex.settle, Call.exec, World.act, Call.act, h.opened], h.drawn⟩

theorem Follows.act (hprog : ∀ X c s, (prog X c).run s = c.exec o X s) (h : Follows o m w) {t : Turn S}
    (hok : m.Ok t) :
    Follows o (m.act prog t) w ∨ ∃ a, w.Ok a ∧ Follows o (m.act prog t) (w.act o a) := by
  cases t with
  | issue X c =>
      refine Or.inl ⟨fun Y => ?_, h.sealed, h.opened, h.drawn⟩
      by_cases hY : Y = X
      · subst hY; simpa [Duplex.act] using (h.obj Y).issue c
      · simpa [Duplex.act, hY] using h.obj Y
  | turn X =>
      have hturn := (h.obj X).turn (hprog X)
      cases ht : (m.obj X).turn (prog X) with
      | mk q settled =>
          rw [ht] at hturn
          cases settled with
          | none =>
              refine Or.inl ⟨fun Y => ?_, by simp only [Duplex.act, ht, h.sealed],
                by simp only [Duplex.act, ht, h.opened], by simp only [Duplex.act, ht, h.drawn]⟩
              by_cases hY : Y = X
              · subst hY; simpa [Duplex.act, ht] using hturn
              · simpa [Duplex.act, ht, hY] using h.obj Y
          | some cr =>
              obtain ⟨c, r⟩ := cr
              obtain ⟨rfl, hq⟩ := hturn
              refine Or.inr ⟨c.act X, ?_, by simpa only [Duplex.act, ht] using h.settle hq⟩
              have hfits : c.Fits m.sealed m.drawn := by
                simpa only [Duplex.Ok, Serial.turn_settles ht, Option.elim_some] using hok
              rw [h.sealed, h.drawn] at hfits
              cases c with
              | encrypt d pt => exact hfits
              | decrypt d seen frame => exact hfits

/-- Every run of overlapping calls is, up to the calls still open, a run of calls one after another. -/
theorem follows (hprog : ∀ X c s, (prog X c).run s = c.exec o X s) {hs : Session S} {now : Role → Time}
    (h : Reach (act prog) Ok (start hs now) m) :
    ∃ w, Reach (World.act o) World.Ok (World.start hs now) w ∧ Follows o m w := by
  refine h.invariant (I := fun m => ∃ w, Reach (World.act o) World.Ok (World.start hs now) w ∧ Follows o m w)
    ⟨_, .start, fun X => Serial.From.idle _, rfl, rfl, rfl⟩ ?_
  intro m t hm hok
  obtain ⟨w, hw, hf⟩ := hm
  rcases hf.act hprog hok with hf' | ⟨a, ha, hf'⟩
  · exact ⟨w, hw, hf'⟩
  · exact ⟨_, .step a hw ha, hf'⟩

/-- Whatever is delivered and however the calls overlap: a plaintext handed out is one the peer sealed,
a frame is handed out once, and no key and nonce seal twice. -/
theorem exactly_once (I : S.Ideal) (hprog : ∀ X c s, (prog X c).run s = c.exec o X s) {hs : Session S}
    {now : Role → Time} (h : Reach (act prog) Ok (start hs now) m) :
    (∀ q ∈ m.opened, ∃ e ∈ m.sealed, e.sender = q.receiver.other ∧ e.frame = q.frame ∧ e.pt = q.pt) ∧
    (m.opened.map fun q => (q.receiver, q.frame)).Nodup ∧
    (m.sealed.map fun e => (e.key, e.nonce)).Nodup := by
  obtain ⟨w, hw, hf⟩ := follows hprog h
  obtain ⟨cs, hi⟩ := Inv.reach I hw
  rw [hf.opened, hf.sealed]
  refine ⟨?_, hi.once, hi.key_nonce_nodup⟩
  intro q hq
  obtain ⟨e, he, c, -, h, len, -, hle, hfr, hpt, ho, -⟩ := hi.opened q hq
  exact ⟨e, he, hle.sender.trans ho, hfr, hpt⟩

instance (c : Call S) (sealed : List (Sealed S)) (drawn : List Pub) : Decidable (c.Fits sealed drawn) :=
  match c with
  | .encrypt d _ => inferInstanceAs (Decidable (S.pub d.newDh ∉ drawn))
  | .decrypt _ seen _ => inferInstanceAs (Decidable (∀ e ∈ seen, e ∈ sealed))

instance (c : Option (Call S)) (sealed : List (Sealed S)) (drawn : List Pub) :
    Decidable (c.elim True fun c => c.Fits sealed drawn) :=
  match c with
  | none => isTrue trivial
  | some c => inferInstanceAs (Decidable (c.Fits sealed drawn))

instance (m : Duplex S) (t : Turn S) : Decidable (m.Ok t) :=
  match t with
  | .issue _ _ => isTrue trivial
  | .turn X => inferInstanceAs (Decidable ((m.obj X).settling.elim True fun c => c.Fits m.sealed m.drawn))

end Duplex

/-! ## Two sends and a delivery at once -/

namespace Symbolic

/-- The two halves of a call: what it does, and the turn in which it settles. -/
def whole (X : Role) (c : Call suite) : Prog (Ratchet suite) (Answer suite) :=
  .seg (fun s => (c.exec {} X s).1) fun s => .done (c.exec {} X s).2

def sendDraws (key : UInt8) : EncryptDraws suite := ⟨key, key, 0, 0⟩

/-- The initiator sends twice without waiting. -/
def twoSends : List (Turn suite) :=
  [.issue .initiator (.encrypt (sendDraws 3) [10]), .issue .initiator (.encrypt (sendDraws 4) [11])] ++
    List.replicate 6 (.turn .initiator)

def sentTwice : Duplex suite := twoSends.foldl (Duplex.act whole) (.start session fun _ => 0)

/-- The second frame is delivered twice while the responder sends. -/
def deliveries : List (Turn suite) :=
  let late := Call.decrypt ⟨0, fun _ => 0, fun _ => 0, 0, (0 : UInt8)⟩ sentTwice.sealed
    (sentTwice.sealed.head?.elim [] Sealed.frame)
  [.issue .responder late, .issue .responder (.encrypt (sendDraws 5) [12]), .issue .responder late] ++
    List.replicate 9 (.turn .responder)

def delivered : Duplex suite := (twoSends ++ deliveries).foldl (Duplex.act whole) (.start session fun _ => 0)

theorem delivered_exactly_once :
    delivered.sealed.length = 3 ∧ delivered.opened.map Opened.pt = [[11]] ∧
    (∀ q ∈ delivered.opened, ∃ e ∈ delivered.sealed,
      e.sender = q.receiver.other ∧ e.frame = q.frame ∧ e.pt = q.pt) ∧
    (delivered.opened.map fun q => (q.receiver, q.frame)).Nodup ∧
    (delivered.sealed.map fun e => (e.key, e.nonce)).Nodup := by
  have hadm : Admits (Duplex.act whole) Duplex.Ok (.start session fun _ => 0) (twoSends ++ deliveries) := by
    decide
  refine ⟨by decide, by decide, ?_⟩
  exact Duplex.exactly_once (o := {}) ideal (fun _ _ _ => rfl) (hadm.reach .start)

end Symbolic

end EncedoChat.Eh2
