import EncedoChat.Group.Delivery

/-!
# Where a delivery comes from

Every frame that a lane tries was handed to the session, and every delivery was opened from one of them, after its MAC
had verified.
-/

namespace EncedoChat.Group

variable {S : Suite} {I : Identities}

/-- A frame of `p` that proved its MAC to the session `v`, one of those in `G`. -/
def FromGiven (v : Session I) (p : I.Pub) (G : Bytes → Prop) (header ct : Bytes) : Prop :=
  ∃ frame, G frame ∧ v.accept frame = some ⟨p, header, ct⟩

/-- What the caller of `receive` has still to try, or has tried, is from `G`. -/
def Caller.From (G : Bytes → Prop) : Caller → Prop
  | .app => True
  | .release x todo keep => G x.frame ∧ (∀ y ∈ todo, G y.frame) ∧ ∀ y ∈ keep, G y.frame

def Receiving.From (v : Session I) (p : I.Pub) (G : Bytes → Prop) : Receiving S I → Prop
  | .checking frame => G frame
  | .opening _ _ a => a.sender = p ∧ FromGiven v p G a.header a.ct

structure Task.From (v : Session I) (p : I.Pub) (G : Bytes → Prop) (T : Task S I) : Prop where
  phase : T.phase.From v p G
  caller : T.caller.From G

namespace Lane

/-- The lane of `p` in the session `v` has no frame but those of `G`. -/
structure From (v : Session I) (p : I.Pub) (G : Bytes → Prop) (l : Lane S I) : Prop where
  session : l.session = v
  member : l.member = p
  held : ∀ xs, l.held = some xs → ∀ x ∈ xs, G x.frame
  tasks : ∀ id T, l.tasks.get id = some T → T.From v p G

variable {v : Session I} {p : I.Pub} {G G' : Bytes → Prop} {l : Lane S I} {id : Nat} {T : Task S I} {t : Time}

theorem From.start (v : Session I) (p : I.Pub) (G : Bytes → Prop) : (Lane.start v p : Lane S I).From v p G where
  session := rfl
  member := rfl
  held xs h := by cases h
  tasks id T h := by cases h

theorem From.mono (h : l.From v p G) (hG : ∀ frame, G frame → G' frame) : l.From v p G' where
  session := h.session
  member := h.member
  held xs hxs x hx := hG _ (h.held xs hxs x hx)
  tasks id T hT := by
    obtain ⟨hphase, hcaller⟩ := h.tasks id T hT
    constructor
    · cases hp : T.phase with
      | checking frame =>
          rw [hp] at hphase
          exact hG _ hphase
      | opening i c a =>
          rw [hp] at hphase
          obtain ⟨hs, frame, hg, ha⟩ := hphase
          exact ⟨hs, frame, hG _ hg, ha⟩
    · cases hc : T.caller with
      | app => trivial
      | release x todo keep =>
          rw [hc] at hcaller
          obtain ⟨hx, htodo, hkeep⟩ := hcaller
          exact ⟨hG _ hx, fun y hy => hG _ (htodo y hy), fun y hy => hG _ (hkeep y hy)⟩

/-- The tasks and what is held are all that counts. -/
theorem From.change {l' : Lane S I} (h : l.From v p G) (hsession : l'.session = l.session)
    (hmember : l'.member = l.member) (hheld : l'.held = l.held) (htasks : l'.tasks = l.tasks) : l'.From v p G where
  session := hsession.trans h.session
  member := hmember.trans h.member
  held := hheld ▸ h.held
  tasks := htasks ▸ h.tasks

theorem From.setTask (h : l.From v p G) (hT : T.From v p G) : From v p G { l with tasks := l.tasks.set id T } where
  session := h.session
  member := h.member
  held := h.held
  tasks id' T' hg := by
    obtain ⟨-, rfl⟩ | ⟨-, hg⟩ := OrdMap.get_set_some hg
    · exact hT
    · exact h.tasks id' T' hg

theorem mem_lastN {α : Type} {n : Nat} {x : α} {xs : List α} (h : x ∈ lastN n xs) : x ∈ xs := List.mem_of_mem_drop h

theorem From.heldSince (h : l.From v p G) {x : Held} (hx : x ∈ l.heldSince t) : G x.frame := by
  have hmem := List.mem_of_mem_filter hx
  cases hh : l.held with
  | none =>
      rw [hh] at hmem
      cases hmem
  | some xs =>
      rw [hh] at hmem
      exact h.held xs hh x hmem

/-! ## Steps -/

theorem From.releaseNext (h : l.From v p G) {use : Option Nat} {keep todo : List Held}
    (hkeep : ∀ y ∈ keep, G y.frame) (htodo : ∀ y ∈ todo, G y.frame) : (l.releaseNext id use keep todo).From v p G := by
  cases todo with
  | cons x todo =>
      exact h.setTask ⟨htodo x (List.mem_cons_self ..), htodo x (List.mem_cons_self ..),
        fun y hy => htodo y (List.mem_cons_of_mem _ hy), hkeep⟩
  | nil =>
      refine ⟨h.session, h.member, ?_, fun id' T' hg => h.tasks id' T' (OrdMap.get_delete_some hg).2⟩
      intro xs hxs x hx
      rw [Lane.releaseNext] at hxs
      dsimp only at hxs
      split at hxs
      · exact h.held xs hxs x hx
      · obtain rfl := Option.some.inj hxs
        obtain hx | hx := List.mem_append.mp (mem_lastN hx)
        · exact hkeep x hx
        · cases hh : l.held with
          | none =>
              rw [hh] at hx
              cases hx
          | some xs =>
              rw [hh] at hx
              exact h.held xs hh x hx

theorem From.release (h : l.From v p G) (use : Option Nat) : (l.release id use t).From v p G := by
  have hnone : From v p G { l with held := none } := ⟨h.session, h.member, fun _ hxs => (nomatch hxs), h.tasks⟩
  exact hnone.releaseNext (fun y hy => nomatch hy) fun y hy => h.heldSince hy

theorem From.settle (h : l.From v p G) (hT : T.caller.From G) (b : Bool) : (l.settle id T b).From v p G := by
  unfold Lane.settle
  cases hc : T.caller with
  | app => exact ⟨h.session, h.member, h.held, fun id' T' hg => h.tasks id' T' (OrdMap.get_delete_some hg).2⟩
  | release x todo keep =>
      rw [hc] at hT
      obtain ⟨hx, htodo, hkeep⟩ := hT
      refine h.releaseNext ?_ htodo
      cases b with
      | true => exact hkeep
      | false =>
          intro y hy
          obtain hy | hy := List.mem_append.mp hy
          · exact hkeep y hy
          · rw [List.mem_singleton.mp hy]
            exact hx

theorem From.hold (h : l.From v p G) {frame : Bytes} (hf : G frame) : (l.hold frame t).From v p G := by
  refine ⟨h.session, h.member, ?_, h.tasks⟩
  intro xs hxs x hx
  obtain rfl := Option.some.inj hxs
  obtain hx | hx := List.mem_append.mp hx
  · exact h.heldSince (mem_lastN hx)
  · rw [List.mem_singleton.mp hx]
    exact hf

theorem From.check (h : l.From v p G) (o : ReceiverOpts) {frame : Bytes} (hf : G frame) (hT : T.caller.From G) :
    (l.check o id T frame t).From v p G := by
  unfold Lane.check
  cases ha : l.session.accept frame with
  | none => exact h.settle hT false
  | some a =>
      dsimp only
      split
      · exact h.settle hT false
      · rename_i hsender
        have hsender : a.sender = p := (not_not.mp hsender).trans h.member
        cases T.use.or l.cur with
        | none => exact (h.hold hf).settle hT false
        | some i =>
            dsimp only
            cases l.heap[i]? with
            | none => exact h.settle hT false
            | some r =>
                dsimp only
                split
                · exact From.settle (by exact h.change rfl rfl rfl rfl) hT false
                · exact From.settle (by exact h.change rfl rfl rfl rfl) hT false
                · rename_i c _
                  have hgiven : FromGiven v p G a.header a.ct := ⟨frame, hf, by rw [← h.session, ha, ← hsender]⟩
                  have htask : Task.From v p G { T with phase := .opening i c a } := ⟨⟨hsender, hgiven⟩, hT⟩
                  have hpruned : From v p G { l with heap := l.heap.set i (r.prune o t) } := h.change rfl rfl rfl rfl
                  exact hpruned.setTask htask

theorem From.finish (h : l.From v p G) (hT : T.caller.From G) (opens : Open S) (i : Nat) (c : Candidate S.Key)
    (a : Session.Accepted I) : (l.finish id T opens i c a t).From v p G := by
  obtain he | ⟨r, pt, -, -, he⟩ := finish_cases l id T opens i c a t
  · rw [he]
    exact h.settle hT false
  · rw [he]
    exact From.settle (by exact h.change rfl rfl rfl rfl) hT true

theorem From.receive (h : l.From v p G) {frame : Bytes} (hf : G frame) : (l.receive id frame).From v p G := by
  unfold Lane.receive
  split
  · exact h
  · exact h.setTask ⟨hf, trivial⟩

theorem From.resume (h : l.From v p G) (o : ReceiverOpts) (opens : Open S) : (l.resume o id opens t).From v p G := by
  unfold Lane.resume
  cases hg : l.tasks.get id with
  | none => exact h
  | some T =>
      obtain ⟨hphase, hcaller⟩ := h.tasks id T hg
      dsimp only
      cases hp : T.phase with
      | checking frame =>
          rw [hp] at hphase
          exact h.check o hphase hcaller
      | opening i c a => exact h.finish hcaller opens i c a

theorem From.setSenderKey (h : l.From v p G) (key : S.Key) (ctr : Nat) : (l.setSenderKey id key ctr t).From v p G := by
  unfold Lane.setSenderKey
  split
  · exact h
  · split
    · exact h
    · dsimp only
      split
      · split
        · exact From.release (by exact h.change rfl rfl rfl rfl) _
        · exact h
      · split
        · exact From.release (by exact h.change rfl rfl rfl rfl) _
        · exact h.change rfl rfl rfl rfl

/-! ## Deliveries -/

theorem delivered_check (o : ReceiverOpts) (frame : Bytes) : (l.check o id T frame t).delivered = l.delivered := by
  have hc := check_cases o l id T frame t
  generalize l.check o id T frame t = l' at hc ⊢
  cases hc with
  | dropped => exact (settle_same l id T false).delivered
  | held _ => exact (settle_same (l.hold frame t) id T false).delivered
  | refused _ => exact (settle_same _ id T false).delivered
  | begun _ _ _ _ => rfl

theorem delivered_setSenderKey (key : S.Key) (ctr : Nat) :
    (l.setSenderKey id key ctr t).delivered = l.delivered := by
  have hnext : ∀ (l : Lane S I) use keep todo, (l.releaseNext id use keep todo).delivered = l.delivered := by
    intro l use keep todo
    cases todo <;> rfl
  unfold Lane.setSenderKey
  split
  · rfl
  · split
    · rfl
    · dsimp only
      split
      · split
        · exact hnext ..
        · rfl
      · split
        · exact hnext ..
        · rfl

/-- A new delivery is of a frame whose MAC verified, and is what the AEAD opened. -/
theorem delivered_resume (h : l.From v p G) {o : ReceiverOpts} {opens : Open S} {d : Delivery}
    (hd : d ∈ (l.resume o id opens t).delivered) :
    d ∈ l.delivered ∨ FromGiven v p G d.header d.ct ∧ ∃ k n, opens k n d.header d.ct = some d.pt := by
  unfold Lane.resume at hd
  cases hg : l.tasks.get id with
  | none =>
      rw [hg] at hd
      exact Or.inl hd
  | some T =>
      obtain ⟨hphase, -⟩ := h.tasks id T hg
      rw [hg] at hd
      dsimp only at hd
      cases hp : T.phase with
      | checking frame =>
          rw [hp] at hd
          dsimp only at hd
          rw [delivered_check] at hd
          exact Or.inl hd
      | opening i c a =>
          rw [hp] at hd hphase
          dsimp only at hd
          obtain he | ⟨r, pt, -, hopen, he⟩ := finish_cases l id T opens i c a t
          · rw [he, (settle_same ..).delivered] at hd
            exact Or.inl hd
          · rw [he, (settle_same ..).delivered] at hd
            obtain rfl | hd := List.mem_cons.mp hd
            · exact Or.inr ⟨hphase.2, _, _, hopen⟩
            · exact Or.inl hd

end Lane

end EncedoChat.Group
