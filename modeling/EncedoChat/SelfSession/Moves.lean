import EncedoChat.SelfSession.Watch

/-!
# How a watch moves

A watch moves in a few ways, and only a frame tells it anything new. Whoever stops a watch that has heard another
window has to know why it may: the window is over, or the watch does not need its timer.
-/

namespace EncedoChat.SelfSession

open Presence (Time)

variable {M : Mac} {τ : Type} [DecidableEq τ]

namespace Watch

/-- A frame of another window waits for what `verifyAnnounce` came to. -/
def Waits (me : String) (v : Watch M τ) : Prop := ∃ peer nonce, .ok (peer, nonce) ∈ v.verifying ∧ peer ≠ me

/-- Another window was heard. -/
def Heard (me : String) (v : Watch M τ) : Prop :=
  v.Waits me ∨ v.preexisting ≠ [] ∨ v.seenNonces.entries ≠ [] ∨ v.stepping = true

/-- What a watch does of itself, or has done to it by its window; `rot` are those that may be stopped, `ended` says the
window is over. -/
inductive Move (me : String) (rot : Watch M τ → Prop) (ended : Prop) : Watch M τ → Watch M τ → Prop
  | refl (v) : Move me rot ended v v
  | stop {v} : ended ∨ rot v → Move me rot ended v v.stop
  | verified {v n res} (now : Time) : v.verifying[n]? = some res →
      Move me rot ended v ({ v with verifying := v.verifying.eraseIdx n }.onVerified me res now)
  | settle {v} : v.settling = true → Move me rot ended v v.settle
  | announcing (v n) : Move me rot ended v { v with announcing := n }
  | farewell {v byPeer} : v.leaving = some (byPeer, .building) →
      Move me rot ended v { v with leaving := some (byPeer, .publishing) }
  | left {v} : v.leaving.isSome → ended → Move me rot ended v { v with done := true, leaving := none }.stop
  | trans {v₁ v₂ v₃} : Move me rot ended v₁ v₂ → Move me rot ended v₂ v₃ → Move me rot ended v₁ v₃

variable {me : String} {rot rot' : Watch M τ → Prop} {ended ended' : Prop} {v v' : Watch M τ}

omit [DecidableEq τ] in
theorem Move.mono (h : Move me rot ended v v') (hover : ended → ended') : Move me rot ended' v v' := by
  induction h with
  | refl v => exact .refl v
  | stop hs => exact .stop (hs.imp_left hover)
  | verified now hn => exact .verified now hn
  | settle hs => exact .settle hs
  | announcing v n => exact .announcing v n
  | farewell hl => exact .farewell hl
  | left hl ho => exact .left hl (hover ho)
  | trans _ _ ih₁ ih₂ => exact .trans ih₁ ih₂

/-! ## The parts of a move -/

omit [DecidableEq τ] in
theorem stepDown_eq (v : Watch M τ) (p : String) : v.stepDown p = v ∧ (v.done = true ∨ v.stepping = true) ∨
    v.stepDown p = { v with stepping := true, leaving := some (p, .building) } ∧ v.done = false ∧ v.stepping = false := by
  rw [stepDown]
  by_cases h : v.done = true ∨ v.stepping = true
  · exact .inl ⟨if_pos h, h⟩
  · obtain ⟨hd, hs⟩ := not_or.mp h
    exact .inr ⟨if_neg h, Bool.eq_false_of_not_eq_true hd, Bool.eq_false_of_not_eq_true hs⟩

theorem last_eq_none {ps : List String} : last ps = none ↔ ps = [] := by
  cases ps <;> simp [last]

omit [DecidableEq τ] in
/-- What `settle` does: without anyone heard the watch is settled, and else it steps down too. -/
theorem settle_eq (v : Watch M τ) : v.preexisting = [] ∧ v.settle = { v with settling := false, settled := true } ∨
    v.preexisting ≠ [] ∧ ∃ p, v.settle = ({ v with settling := false, settled := true } : Watch M τ).stepDown p := by
  rw [settle]
  cases hl : last v.preexisting with
  | none => exact .inl ⟨last_eq_none.mp hl, rfl⟩
  | some p =>
      refine .inr ⟨fun h => ?_, p, rfl⟩
      rw [last_eq_none.mpr h] at hl
      cases hl

omit [DecidableEq τ] in
/-- What a verified frame does: nothing, or its nonce is kept and its peer noted or stepped down for. -/
theorem onVerified_eq (me : String) (v : Watch M τ) (res : Except String (String × String)) (now : Time) :
    v.onVerified me res now = v ∧ (∀ p n, res = .ok (p, n) → p = me ∨ v.seenNonces.has n = true) ∨
      ∃ p n, res = .ok (p, n) ∧ p ≠ me ∧
        (v.settled = true ∧
            v.onVerified me res now = ({ v with seenNonces := NonceCache.add v.seenNonces n now } : Watch M τ).stepDown p ∨
          v.settled = false ∧ ∃ ps ≠ [], v.onVerified me res now =
            { v with seenNonces := NonceCache.add v.seenNonces n now, preexisting := ps }) := by
  cases res with
  | error e => exact .inl ⟨rfl, by simp⟩
  | ok pn =>
      obtain ⟨p, n⟩ := pn
      by_cases hskip : p = me ∨ v.seenNonces.has n = true
      · refine .inl ⟨by rw [onVerified, if_pos hskip], fun p' n' h => ?_⟩
        cases h
        exact hskip
      · refine .inr ⟨p, n, rfl, fun h => hskip (.inl h), ?_⟩
        rw [onVerified, if_neg hskip]
        by_cases hs : v.settled = true
        · exact .inl ⟨hs, if_pos hs⟩
        · refine .inr ⟨Bool.eq_false_of_not_eq_true hs, if p ∈ v.preexisting then v.preexisting else v.preexisting ++ [p],
            ?_, if_neg hs⟩
          split
          · exact List.ne_nil_of_mem ‹_›
          · simp

/-- A move tells a watch nothing of another window, and it forgets none. -/
theorem Move.heard (h : Move me rot ended v v') : v'.Heard me ↔ v.Heard me := by
  induction h with
  | refl v => exact Iff.rfl
  | stop _ => exact Iff.rfl
  | announcing v n => exact Iff.rfl
  | farewell _ => exact Iff.rfl
  | left _ _ => exact Iff.rfl
  | trans _ _ ih₁ ih₂ => exact ih₂.trans ih₁
  | @settle v _ =>
      obtain ⟨-, heq⟩ | ⟨hpre, p, heq⟩ := v.settle_eq
      · rw [heq]
        exact Iff.rfl
      · obtain ⟨hsame, -⟩ | ⟨hstep, -⟩ := stepDown_eq ({ v with settling := false, settled := true } : Watch M τ) p
        · rw [heq, hsame]
          exact Iff.rfl
        · rw [heq, hstep]
          exact ⟨fun _ => .inr (.inl hpre), fun _ => .inr (.inl hpre)⟩
  | @verified v n res now hn =>
      have hmem : res ∈ v.verifying := List.mem_of_getElem? hn
      obtain ⟨heq, hskip⟩ | ⟨p, nonce, rfl, hne, hnew⟩ :=
        onVerified_eq me { v with verifying := v.verifying.eraseIdx n } res now
      · rw [heq]
        refine or_congr_left' fun hrest => ?_
        constructor
        · rintro ⟨p, nonce, hin, hne⟩
          exact ⟨p, nonce, List.mem_of_mem_eraseIdx hin, hne⟩
        · rintro ⟨p, nonce, hin, hne⟩
          obtain ⟨k, hk⟩ := List.mem_iff_getElem?.mp hin
          refine ⟨p, nonce, List.mem_eraseIdx_iff_getElem?.mpr ⟨k, fun hkn => ?_, hk⟩, hne⟩
          subst hkn
          cases hn.symm.trans hk
          obtain hself | hseen := hskip p nonce rfl
          · exact hne hself
          · refine hrest (.inr (.inl fun hnil => ?_))
            obtain ⟨_, hget⟩ := Option.isSome_iff_exists.mp hseen
            have := OrdMap.get_eq_some.mp hget
            rw [hnil] at this
            exact List.not_mem_nil this
      · refine iff_of_true ?_ (.inl ⟨p, nonce, hmem, hne⟩)
        obtain ⟨-, heq⟩ | ⟨-, ps, -, heq⟩ := hnew
        · obtain ⟨hsame, -⟩ | ⟨hstep, -⟩ := stepDown_eq ({ v with
            verifying := v.verifying.eraseIdx n, seenNonces := NonceCache.add v.seenNonces nonce now } : Watch M τ) p
          · rw [heq, hsame]
            exact .inr (.inr (.inl (NonceCache.add_ne_nil _ _ _)))
          · rw [heq, hstep]
            exact .inr (.inr (.inr rfl))
        · rw [heq]
          exact .inr (.inr (.inl (NonceCache.add_ne_nil _ _ _)))

/-- A watch that waits for its farewell, or is past it, steps down. -/
def Leaves (v : Watch M τ) : Prop := v.done = true ∨ v.leaving.isSome = true → v.stepping = true

theorem Leaves.stepDown (h : v.Leaves) (p : String) : (v.stepDown p).Leaves := by
  obtain ⟨heq, -⟩ | ⟨heq, -⟩ := stepDown_eq v p
  · rw [heq]
    exact h
  · rw [heq]
    exact fun _ => rfl

theorem Move.leaves (hmove : Move me rot ended v v') (h : v.Leaves) : v'.Leaves := by
  induction hmove with
  | refl v => exact h
  | stop _ => exact h
  | announcing v n => exact h
  | farewell hl => exact fun _ => h (.inr (Option.isSome_iff_exists.mpr ⟨_, hl⟩))
  | left hl _ => exact fun _ => h (.inr hl)
  | trans _ _ ih₁ ih₂ => exact ih₂ (ih₁ h)
  | @settle v _ =>
      obtain ⟨-, heq⟩ | ⟨-, p, heq⟩ := v.settle_eq
      · rw [heq]
        exact h
      · rw [heq]
        apply Leaves.stepDown
        exact h
  | @verified v n res now _ =>
      obtain ⟨heq, -⟩ | ⟨p, nonce, -, -, ⟨-, heq⟩ | ⟨-, ps, -, heq⟩⟩ :=
        onVerified_eq me { v with verifying := v.verifying.eraseIdx n } res now
      · rw [heq]
        exact h
      · rw [heq]
        apply Leaves.stepDown
        exact h
      · rw [heq]
        exact h

/-! ## What has heard another window is on its way out -/

/-- The watch does not need its timer: it has settled, or heard no other window. -/
def Idle (me : String) (v : Watch M τ) : Prop := v.settled = true ∨ ¬v.Waits me ∧ v.preexisting = []

/-- What is under way ends in a step-down: a frame that the handler verifies, the settle timer, or a farewell. -/
def OnItsWay (me : String) (v : Watch M τ) : Prop :=
  (v.Waits me ∧ (v.settling = true ∨ v.settled = true)) ∨ (v.preexisting ≠ [] ∧ v.settling = true) ∨
    v.leaving.isSome = true

/-- A watch of a window, of which `ended` says that it stood down or was closed. -/
structure Fine (me : String) (ended : Prop) (v : Watch M τ) : Prop where
  listens : v.running = true → v.done = false ∧ (v.settling = true ∨ v.settled = true)
  timer : v.settling = true → v.settled = false
  waits : v.Waits me → v.settling = true ∨ v.settled = true ∨ ended
  noted : v.preexisting ≠ [] → v.settling = true ∨ v.stepping = true ∨ ended
  seen : v.seenNonces.entries ≠ [] → v.preexisting ≠ [] ∨ v.stepping = true
  steps : v.stepping = true → v.leaving.isSome = true ∨ ended
  leaves : v.Leaves
  done : v.done = true → ended

omit [DecidableEq τ] in
theorem Fine.onItsWay (h : v.Fine me ended) (hheard : v.Heard me) : ended ∨ v.OnItsWay me := by
  have hstep : v.stepping = true → ended ∨ v.OnItsWay me := fun hs =>
    (h.steps hs).symm.imp_right fun hl => .inr (.inr hl)
  have hnoted : v.preexisting ≠ [] → ended ∨ v.OnItsWay me := by
    intro hp
    obtain hs | hs | ho := h.noted hp
    · exact .inr (.inr (.inl ⟨hp, hs⟩))
    · exact hstep hs
    · exact .inl ho
  obtain hw | hp | hn | hs := hheard
  · obtain hs | hs | ho := h.waits hw
    · exact .inr (.inl ⟨hw, .inl hs⟩)
    · exact .inr (.inl ⟨hw, .inr hs⟩)
    · exact .inl ho
  · exact hnoted hp
  · exact (h.seen hn).elim hnoted hstep
  · exact hstep hs

omit [DecidableEq τ] in
theorem Fine.mono (h : v.Fine me ended) (hover : ended → ended') : v.Fine me ended' where
  listens := h.listens
  timer := h.timer
  waits hw := (h.waits hw).imp_right (Or.imp_right hover)
  noted hp := (h.noted hp).imp_right (Or.imp_right hover)
  seen := h.seen
  steps hs := (h.steps hs).imp_right hover
  leaves := h.leaves
  done hd := hover (h.done hd)

omit [DecidableEq τ] in
theorem Fine.start (topic : τ) (key : M.Key) : (Watch.start topic key : Watch M τ).Fine me ended where
  listens _ := ⟨rfl, .inl rfl⟩
  timer _ := rfl
  waits _ := .inl rfl
  noted _ := .inl rfl
  seen h := absurd rfl h
  steps h := by cases h
  leaves h := by rcases h with h | h <;> cases h
  done h := by cases h

/-- A watch that steps down needs no more of what it heard. -/
theorem Fine.stepDown (listens : v.running = true → v.done = false ∧ (v.settling = true ∨ v.settled = true))
    (timer : v.settling = true → v.settled = false) (waits : v.Waits me → v.settling = true ∨ v.settled = true ∨ ended)
    (steps : v.stepping = true → v.leaving.isSome = true ∨ ended)
    (leaves : v.Leaves) (done : v.done = true → ended) (p : String) :
    (v.stepDown p).Fine me ended := by
  obtain ⟨heq, hwhy⟩ | ⟨heq, -, -⟩ := stepDown_eq v p
  · have hstep : v.stepping = true := hwhy.elim (fun hd => leaves (.inl hd)) id
    rw [heq]
    exact ⟨listens, timer, waits, fun _ => .inr (.inl hstep), fun _ => .inr hstep, steps, leaves, done⟩
  · rw [heq]
    exact ⟨listens, timer, waits, fun _ => .inr (.inl rfl), fun _ => .inr rfl, fun _ => .inl rfl, fun _ => rfl, done⟩

theorem Fine.settle (h : v.Fine me ended) (hs : v.settling = true) : v.settle.Fine me ended := by
  obtain ⟨hnone, heq⟩ | ⟨-, p, heq⟩ := v.settle_eq
  · rw [heq]
    exact { h with
      listens := fun hr => ⟨(h.listens hr).1, .inr rfl⟩
      timer := fun ht => by cases ht
      waits := fun _ => .inr (.inl rfl)
      noted := fun hp => absurd hnone hp }
  · rw [heq]
    apply Fine.stepDown
    · exact fun hr => ⟨(h.listens hr).1, .inr rfl⟩
    · exact fun ht => (Bool.false_ne_true ht).elim
    · exact fun _ => .inr (.inl rfl)
    · exact h.steps
    · exact h.leaves
    · exact h.done

theorem Fine.verified (h : v.Fine me ended) {n : Nat} {res : Except String (String × String)} (now : Time)
    (hn : v.verifying[n]? = some res) :
    (({ v with verifying := v.verifying.eraseIdx n } : Watch M τ).onVerified me res now).Fine me ended := by
  have hwaits : ({ v with verifying := v.verifying.eraseIdx n } : Watch M τ).Waits me → v.Waits me :=
    fun ⟨p, nonce, hin, hne⟩ => ⟨p, nonce, List.mem_of_mem_eraseIdx hin, hne⟩
  obtain ⟨heq, -⟩ | ⟨p, nonce, rfl, hne, hnew⟩ :=
    onVerified_eq me { v with verifying := v.verifying.eraseIdx n } res now
  · rw [heq]
    exact { h with waits := fun hw => h.waits (hwaits hw) }
  · have hv : v.Waits me := ⟨p, nonce, List.mem_of_getElem? hn, hne⟩
    obtain ⟨hsettled, heq⟩ | ⟨hsettled, ps, hps, heq⟩ := hnew
    · rw [heq]
      apply Fine.stepDown
      · exact h.listens
      · exact h.timer
      · exact fun _ => .inr (.inl hsettled)
      · exact h.steps
      · exact h.leaves
      · exact h.done
    · rw [heq]
      have htimer : v.settling = true ∨ ended := by
        obtain hs | hs | ho := h.waits hv
        · exact .inl hs
        · exact absurd hs (Bool.not_eq_true _ ▸ hsettled)
        · exact .inr ho
      exact { h with
        waits := fun _ => h.waits hv
        noted := fun _ => htimer.imp_right .inr
        seen := fun _ => .inl hps }

omit [DecidableEq τ] in
/-- Stopping a watch that has no need of its timer, or whose window is over, loses nothing. -/
theorem Fine.stop (h : v.Fine me ended) (hwhy : ended ∨ v.Idle me) : v.stop.Fine me ended where
  listens hr := by cases hr
  timer ht := by cases ht
  waits hw := by
    obtain ho | hs | ⟨hquiet, -⟩ := hwhy
    · exact .inr (.inr ho)
    · exact .inr (.inl hs)
    · exact absurd hw hquiet
  noted hp := by
    obtain ho | hs | ⟨-, hnone⟩ := hwhy
    · exact .inr (.inr ho)
    · obtain ht | hstep := h.noted hp
      · cases (h.timer ht).symm.trans hs
      · exact .inr hstep
    · exact absurd hnone hp
  seen := h.seen
  steps := h.steps
  leaves := h.leaves
  done := h.done

/-- A move keeps a watch on its way. -/
theorem Move.fine (hmove : Move me (Idle me) ended v v') (h : v.Fine me ended) : v'.Fine me ended := by
  induction hmove with
  | refl v => exact h
  | stop hwhy => exact h.stop hwhy
  | verified now hn => exact h.verified now hn
  | settle hs => exact h.settle hs
  | announcing v n => exact { h with }
  | farewell hl => exact { h with
      steps := fun _ => .inl rfl
      leaves := fun _ => h.leaves (.inr (Option.isSome_iff_exists.mpr ⟨_, hl⟩)) }
  | left hl ho => exact
      { listens := fun hr => by cases hr
        timer := fun ht => by cases ht
        waits := fun _ => .inr (.inr ho)
        noted := fun _ => .inr (.inr ho)
        seen := h.seen
        steps := fun _ => .inr ho
        leaves := fun _ => h.leaves (.inr hl)
        done := fun _ => ho }
  | trans _ _ ih₁ ih₂ => exact ih₂ (ih₁ h)

/-! ## A frame -/

theorem onMessage_eq (me : String) (v : Watch M τ) (topic : τ) (frm : String) (data : Option Json) (now : Time) :
    v.onMessage me topic frm data now = v ∨
      v.running = true ∧ topic = v.topic ∧ frm ≠ me ∧ v.onMessage me topic frm data now =
        { v with verifying := v.verifying ++ [verifyAnnounce M data v.macKey now] } := by
  rw [onMessage]
  split
  · exact .inl rfl
  · rename_i hgo
    simp only [not_or, Bool.not_eq_false, not_not] at hgo
    exact .inr ⟨hgo.1, hgo.2.2.1, hgo.2.2.2, rfl⟩

theorem Leaves.message (h : v.Leaves) (topic : τ) (frm : String) (data : Option Json) (now : Time) :
    (v.onMessage me topic frm data now).Leaves := by
  obtain heq | ⟨-, -, -, heq⟩ := onMessage_eq me v topic frm data now
  · rw [heq]
    exact h
  · rw [heq]
    exact h

theorem Fine.message (h : v.Fine me ended) (topic : τ) (frm : String) (data : Option Json) (now : Time) :
    (v.onMessage me topic frm data now).Fine me ended := by
  obtain heq | ⟨hr, -, -, heq⟩ := onMessage_eq me v topic frm data now
  · rw [heq]
    exact h
  · rw [heq]
    exact { h with waits := fun _ => (h.listens hr).2.imp_right .inl }

/-- Only a valid announce of another window, under the watch's key, tells it of one. -/
theorem heard_of_message {topic : τ} {frm : String} {data : Option Json} {now : Time}
    (h : (v.onMessage me topic frm data now).Heard me) :
    v.Heard me ∨ v.running = true ∧ topic = v.topic ∧ frm ≠ me ∧
      ∃ peer nonce, verifyAnnounce M data v.macKey now = .ok (peer, nonce) ∧ peer ≠ me := by
  obtain heq | ⟨hr, htopic, hfrm, heq⟩ := onMessage_eq me v topic frm data now
  · exact .inl (heq ▸ h)
  · rw [heq] at h
    obtain ⟨p, n, hmem, hne⟩ | hrest := h
    · obtain hold | hnew := List.mem_append.mp hmem
      · exact .inl (.inl ⟨p, n, hold, hne⟩)
      · exact .inr ⟨hr, htopic, hfrm, p, n, (List.mem_singleton.mp hnew).symm, hne⟩
    · exact .inl (.inr hrest)

theorem Heard.message (h : v.Heard me) (topic : τ) (frm : String) (data : Option Json) (now : Time) :
    (v.onMessage me topic frm data now).Heard me := by
  obtain heq | ⟨-, -, -, heq⟩ := onMessage_eq me v topic frm data now
  · exact heq.symm ▸ h
  · rw [heq]
    exact h.imp_left fun ⟨p, n, hin, hne⟩ => ⟨p, n, List.mem_append_left _ hin, hne⟩

end Watch

end EncedoChat.SelfSession
