import Mathlib.Data.List.Nodup
import EncedoChat.Lib.Run
import EncedoChat.Light.Adapter

/-!
# Which topics the relay carries

A topic counts as carried from a PICKED on. That is the truth as long as the PICKED comes on the stream that is attached
and answers the PICK that stands there: the last of the topic, with no DROP after it.
-/

namespace EncedoChat.Light

variable {ρ τ : Type} [DecidableEq ρ] [DecidableEq τ]

/-- What a frame does to the PICK that stands. -/
def stand (t : τ) (o : Option Nat) : Up τ → Option Nat
  | .pick t' k => if t' = t then some k else o
  | .drop t' => if t' = t then none else o
  | .push .. => o

/-- The PICK of a topic that stands after the frames: the last, if no DROP of the topic came after it. -/
def stands (t : τ) (fs : List (Up τ)) : Option Nat := fs.foldl (stand t) none

theorem stands_snoc (t : τ) (fs : List (Up τ)) (f : Up τ) : stands t (fs ++ [f]) = stand t (stands t fs) f := by
  rw [stands, List.foldl_append]
  rfl

/-- It was sent, and after it neither a PICK nor a DROP of the topic. -/
theorem of_stands {t : τ} {fs : List (Up τ)} {k : Nat} (h : stands t fs = some k) :
    ∃ pre post, fs = pre ++ .pick t k :: post ∧ .drop t ∉ post ∧ ∀ k', .pick t k' ∉ post := by
  induction fs using List.reverseRecOn with
  | nil => cases h
  | append_singleton fs f ih =>
      rw [stands_snoc] at h
      have hold : stands t fs = some k → (f ≠ .drop t ∧ ∀ k', f ≠ .pick t k') →
          ∃ pre post, fs ++ [f] = pre ++ .pick t k :: post ∧ .drop t ∉ post ∧ ∀ k', .pick t k' ∉ post := by
        intro hs hf
        obtain ⟨pre, post, rfl, hdrop, hpick⟩ := ih hs
        refine ⟨pre, post ++ [f], by simp, ?_, fun k' => ?_⟩
        · simp [hdrop, hf.1.symm]
        · simp [hpick k', (hf.2 k').symm]
      cases f with
      | push t' data j => exact hold h ⟨nofun, fun _ => nofun⟩
      | pick t' j =>
          by_cases ht : t' = t
          · rw [stand, if_pos ht] at h
            cases h
            exact ⟨fs, [], by rw [ht], List.not_mem_nil, fun _ => List.not_mem_nil⟩
          · rw [stand, if_neg ht] at h
            exact hold h ⟨nofun, fun _ heq => ht (by cases heq; rfl)⟩
      | drop t' =>
          by_cases ht : t' = t
          · rw [stand, if_pos ht] at h
            cases h
          · rw [stand, if_neg ht] at h
            exact hold h ⟨fun heq => ht (by cases heq; rfl), fun _ => nofun⟩

/-- The PICKs among what the client sent. -/
def asks (fs : List (Up τ)) : List (τ × Nat) :=
  fs.filterMap fun f => match f with
    | .pick t k => some (t, k)
    | _ => none

/-- The PICKs that the relay answered. -/
def answers (fs : List (Down τ)) : List (τ × Nat) :=
  fs.filterMap fun f => match f with
    | .picked t k => some (t, k)
    | .refused t k => some (t, k)
    | _ => none

omit [DecidableEq τ] in
theorem asks_append (a b : List (Up τ)) : asks (a ++ b) = asks a ++ asks b := List.filterMap_append

omit [DecidableEq τ] in
theorem answers_append (a b : List (Down τ)) : answers (a ++ b) = answers a ++ answers b := List.filterMap_append

omit [DecidableEq τ] in
theorem answers_answer (f : Up τ) (ok : Bool) (n : Nat) : answers (Peer.answer f ok n) = asks [f] := by
  cases f with
  | pick topic k => cases ok <;> rfl
  | drop topic => rfl
  | push topic data k => rfl

omit [DecidableEq τ] in
theorem mem_asks {fs : List (Up τ)} {t : τ} {k : Nat} : (t, k) ∈ asks fs ↔ .pick t k ∈ fs := by
  rw [asks, List.mem_filterMap]
  constructor
  · rintro ⟨f, hf, heq⟩
    cases f with
    | pick t' k' =>
        cases heq
        exact hf
    | _ => cases heq
  · exact fun h => ⟨_, h, rfl⟩

omit [DecidableEq τ] in
theorem mem_answers_refused {fs : List (Down τ)} {t : τ} {k : Nat} (h : .refused t k ∈ fs) : (t, k) ∈ answers fs :=
  List.mem_filterMap.mpr ⟨_, h, rfl⟩

namespace Stream

/-- The relay answers PICKs in the order they were sent, each once. -/
structure Ordered (st : Stream ρ τ) (fresh : Nat) : Prop where
  order : answers st.said ++ asks st.up = asks st.sent
  once : (asks st.sent).Nodup
  fresh : ∀ a ∈ asks st.sent, a.2 < fresh
  said : ∀ f ∈ st.down, f ∈ st.said

omit [DecidableEq ρ] [DecidableEq τ] in
theorem Ordered.mono {st : Stream ρ τ} {m n : Nat} (h : st.Ordered m) (hmn : m ≤ n) :
    st.Ordered n :=
  { h with fresh := fun a ha => (h.fresh a ha).trans_le hmn }

omit [DecidableEq ρ] [DecidableEq τ] in
theorem Ordered.close {st : Stream ρ τ} {n : Nat} (h : st.Ordered n) :
    ({ st with closed := true } : Stream ρ τ).Ordered n :=
  { h with }

omit [DecidableEq ρ] in
/-- After the PICKED for the PICK that stands, the relay has refused the topic no more. -/
theorem Ordered.not_refused {st : Stream ρ τ} {n : Nat} (h : st.Ordered n) {t : τ} {k : Nat}
    (hs : stands t st.sent = some k) (hp : .picked t k ∈ st.said) :
    ∃ a b, st.said = a ++ .picked t k :: b ∧ ∀ k', .refused t k' ∉ b := by
  obtain ⟨a, b, hsaid⟩ := List.append_of_mem hp
  obtain ⟨pre, post, hsent, -, hlast⟩ := of_stands hs
  refine ⟨a, b, hsaid, fun k' hk' => ?_⟩
  have horder := h.order
  have hb : answers (.picked t k :: b) = (t, k) :: answers b := rfl
  have hpost : asks (.pick t k :: post) = (t, k) :: asks post := rfl
  rw [hsaid, answers_append, hb, hsent, asks_append, hpost, List.append_assoc, List.cons_append] at horder
  have hnd := h.once
  rw [hsent, asks_append, hpost] at hnd
  -- the two lists split at the one place where the PICK stands
  have hpre : (t, k) ∉ asks pre := fun hin => (List.nodup_append.mp hnd).2.2 _ hin _ List.mem_cons_self rfl
  have hpost' : (t, k) ∉ asks post := (List.nodup_cons.mp (List.nodup_append.mp hnd).2.1).1
  obtain ⟨-, -, hrest⟩ := (List.append_cons_inj_of_notMem hpre hpost').mp horder.symm
  refine hlast k' (mem_asks.mp ?_)
  rw [hrest]
  exact List.mem_append_left _ (mem_answers_refused hk')

end Stream

namespace Peer

/-- The PICK of a topic that a frame confirms. -/
def confirms (t : τ) : Down τ → Option Nat
  | .picked t' k => if t' = t then some k else none
  | _ => none

/-- A PICKED that is handled for a topic held and not counted yet comes on the attached stream, and answers the PICK
that stands there. -/
def PickMeets (w : Peer ρ τ) : Event ρ τ → Prop
  | .arrive s => ∀ st ∈ w.streams.get s, ∀ f ∈ st.down.head?, ∀ t ∈ w.held, t ∉ w.picked → ∀ k ∈ Peer.confirms t f,
      w.stream = some s ∧ stands t st.sent = some k
  | _ => True

instance (w : Peer ρ τ) : (e : Event ρ τ) → Decidable (w.PickMeets e)
  | .arrive s =>
    inferInstanceAs (Decidable (∀ st ∈ w.streams.get s, ∀ f ∈ st.down.head?, ∀ t ∈ w.held, t ∉ w.picked →
      ∀ k ∈ Peer.confirms t f, w.stream = some s ∧ stands t st.sent = some k))
  | .attach _ | .opened _ | .openFailed _ | .detach | .subscribe _ | .unsubscribe _ | .publish _ _ | .timeout _
  | .bye _ | .serve _ _ _ | .relayed _ _ _ _ => inferInstanceAs (Decidable True)

/-- The relay of the attached stream answered PICKED to the PICK of the topic that stands, and has not refused since. -/
def Carried (w : Peer ρ τ) (t : τ) (r : ρ) : Prop :=
  ∃ s st k a b, w.stream = some s ∧ w.streams.get s = some st ∧ st.relay = r ∧ stands t st.sent = some k ∧
    st.said = a ++ .picked t k :: b ∧ ∀ k', .refused t k' ∉ b

/-- What holds of every stream ever opened. -/
structure Lines (w : Peer ρ τ) : Prop where
  ordered : ∀ s st, w.streams.get s = some st → st.Ordered w.fresh
  streams : ∀ s st, w.streams.get s = some st → s < w.fresh
  opening : w.opening.Nodup ∧ ∀ s ∈ w.opening, s < w.fresh
  held : w.held.Nodup

/-- What the topics that count as carried have to do with the live one. -/
structure Told (w : Peer ρ τ) : Prop extends Lines w where
  current : ∀ s, w.current = some s → ∃ st, w.streams.get s = some st ∧ st.closed = false ∧ w.relayId = some st.relay
  live : ∀ s, w.stream = some s → w.current = some s ∧ s ∉ w.opening
  nodup : w.picked.Nodup
  picked : ∀ t ∈ w.picked, t ∈ w.held ∧ ∃ s st k, w.stream = some s ∧ w.streams.get s = some st ∧
    stands t st.sent = some k ∧ .picked t k ∈ st.said

variable {w : Peer ρ τ}

omit [DecidableEq ρ] in
theorem Told.start : (start : Peer ρ τ).Told where
  ordered s st h := by cases h
  streams s st h := by cases h
  current s h := by cases h
  live s h := by cases h
  opening := ⟨List.nodup_nil, fun s h => by cases h⟩
  held := List.nodup_nil
  nodup := List.nodup_nil
  picked t h := by cases h

/-- What the client believes is what the relay said. -/
theorem Told.carries (h : w.Told) {t : τ} {r : ρ} (hr : r ∈ w.getSubscribers t) : w.Carried t r := by
  rw [getSubscribers] at hr
  split at hr
  · rename_i ht
    obtain ⟨-, s, st, k, hs, hst, hstands, hsaid⟩ := h.picked t ht
    obtain ⟨u, hu, -, hrelay⟩ := h.current s (h.live s hs).1
    cases hu.symm.trans hst
    rw [hrelay] at hr
    obtain ⟨a, b, hsplit, hno⟩ := (h.ordered s st hst).not_refused hstands hsaid
    exact ⟨s, st, k, a, b, hs, hst, (List.mem_singleton.mp hr).symm, hstands, hsplit, hno⟩
  · cases hr

/-! ## A stream changes -/

omit [DecidableEq ρ] [DecidableEq τ] in
theorem Lines.put (h : w.Lines) {s : Nat} {st st' : Stream ρ τ} (hst : w.streams.get s = some st)
    (hord : st'.Ordered w.fresh) : (w.put s st').Lines where
  ordered c u hu := by
    obtain ⟨rfl, rfl⟩ | ⟨-, hold⟩ := OrdMap.get_set_some hu
    · exact hord
    · exact h.ordered c u hold
  streams c u hu := by
    obtain ⟨rfl, -⟩ | ⟨-, hold⟩ := OrdMap.get_set_some hu
    · exact h.streams _ st hst
    · exact h.streams c u hold
  opening := h.opening
  held := h.held

/-- The PICKs of the topics that count stand as they stood. -/
theorem Told.put (h : w.Told) {s : Nat} {st st' : Stream ρ τ} (hst : w.streams.get s = some st)
    (hord : st'.Ordered w.fresh) (hclosed : st'.closed = st.closed) (hrelay : st'.relay = st.relay)
    (hsaid : ∀ f ∈ st.said, f ∈ st'.said) (hstands : ∀ t ∈ w.picked, stands t st'.sent = stands t st.sent) :
    (w.put s st').Told where
  toLines := h.toLines.put hst hord
  current c hc := by
    obtain ⟨u, hu, hopen, hr⟩ := h.current c hc
    by_cases hs : c = s
    · subst hs
      cases hu.symm.trans hst
      exact ⟨st', OrdMap.get_set_self .., hclosed.trans hopen, hrelay ▸ hr⟩
    · exact ⟨u, (OrdMap.get_set_ne _ _ hs).trans hu, hopen, hr⟩
  live := h.live
  nodup := h.nodup
  picked t ht := by
    obtain ⟨hheld, c, u, k, hc, hu, hk, hin⟩ := h.picked t ht
    refine ⟨hheld, c, ?_⟩
    by_cases hs : c = s
    · subst hs
      cases hu.symm.trans hst
      exact ⟨st', k, hc, OrdMap.get_set_self .., (hstands t ht).trans hk, hsaid _ hin⟩
    · exact ⟨u, k, hc, (OrdMap.get_set_ne _ _ hs).trans hu, hk, hin⟩

theorem Told.later (h : w.Told) {n : Nat} (hn : w.fresh ≤ n) : ({ w with fresh := n } : Peer ρ τ).Told :=
  { h with
    ordered := fun s st hst => (h.ordered s st hst).mono hn
    streams := fun s st hst => (h.streams s st hst).trans_le hn
    opening := ⟨h.opening.1, fun s hs => (h.opening.2 s hs).trans_le hn⟩ }

/-- A frame that leaves the PICKs of the topics that count alone; a PICK among them has the next number. -/
theorem Told.send (h : w.Told) (s : Nat) {f : Up τ} {n : Nat} (hn : w.fresh ≤ n)
    (hnew : ∀ a ∈ asks [f], a.2 = w.fresh ∧ w.fresh < n)
    (hstands : ∀ t ∈ w.picked, ∀ o, stand t o f = o) : ({ w.send s f with fresh := n } : Peer ρ τ).Told := by
  rw [Peer.send]
  cases hst : w.streams.get s with
  | none => exact h.later hn
  | some st =>
      dsimp only
      by_cases hclosed : st.closed = true
      · rw [if_pos hclosed]
        exact h.later hn
      · rw [if_neg hclosed]
        have hord := h.ordered s st hst
        refine (h.later hn).put hst ?_ rfl rfl (fun _ hf => hf) fun t ht => ?_
        · exact
            { order := by rw [asks_append, asks_append, ← List.append_assoc, hord.order]
              once := by
                rw [asks_append]
                refine List.nodup_append.mpr ⟨hord.once, ?_, fun a ha b hb hab => ?_⟩
                · cases f with
                  | pick topic k => exact List.nodup_singleton _
                  | drop topic => exact List.nodup_nil
                  | push topic data k => exact List.nodup_nil
                · exact absurd (hord.fresh a ha) (by rw [hab, (hnew b hb).1]; exact lt_irrefl _)
              fresh := fun a ha => by
                rw [asks_append] at ha
                obtain ha | ha := List.mem_append.mp ha
                · exact (hord.fresh a ha).trans_le hn
                · obtain ⟨heq, hlt⟩ := hnew a ha
                  exact heq ▸ hlt
              said := hord.said }
        · rw [stands_snoc, hstands t ht]

/-- The PICK of a topic that does not count. -/
theorem Told.sendPick (h : w.Told) {topic : τ} (ht : topic ∉ w.picked) : (w.sendPick topic).Told := by
  rw [Peer.sendPick]
  cases hs : w.stream with
  | none => exact h
  | some s =>
      refine h.send s (Nat.le_succ _) (fun a ha => ?_) fun t hin o => ?_
      · rw [List.mem_singleton.mp ha]
        exact ⟨rfl, Nat.lt_succ_self _⟩
      · exact if_neg fun (heq : topic = t) => ht (heq ▸ hin)

omit [DecidableEq ρ] [DecidableEq τ] in
theorem send_picked (w : Peer ρ τ) (s : Nat) (f : Up τ) : (w.send s f).picked = w.picked := by
  rw [send]
  split
  · rfl
  · split <;> rfl

theorem sendPick_picked (w : Peer ρ τ) (topic : τ) : (w.sendPick topic).picked = w.picked := by
  rw [sendPick]
  split
  · rfl
  · exact w.send_picked ..

theorem Told.sendPicks (h : w.Told) {topics : List τ} (hnone : w.picked = []) : (topics.foldl Peer.sendPick w).Told := by
  induction topics generalizing w with
  | nil => exact h
  | cons t ts ih =>
      refine ih (h.sendPick ?_) ((w.sendPick_picked t).trans hnone)
      rw [hnone]
      exact List.not_mem_nil

/-! ## Streams come and go -/

theorem Told.settle (h : w.Told) (k : Nat) (n : Option Nat) : (w.settle k n).Told := by
  obtain heq | ⟨p, -, -, heq⟩ := w.settle_eq k n <;> rw [heq]
  · exact h
  · exact { h with }

theorem Lines.settleAll (h : w.Lines) (n : Option Nat) (ks : List Nat) : (w.settleAll n ks).Lines := by
  induction ks generalizing w with
  | nil => exact h
  | cons k ks ih =>
      have hstep : (w.settle k n).Lines := by
        obtain heq | ⟨p, -, -, heq⟩ := w.settle_eq k n <;> rw [heq]
        · exact h
        · exact { h with }
      exact ih hstep

/-- After `onClose` no topic counts. -/
theorem Told.onClose (h : w.Lines) (hcurrent : w.current = none) : w.onClose.Told where
  toLines := { h.settleAll _ _ with }
  current s hs := by
    obtain ⟨-, hsame⟩ := w.settleAll_same none (w.waitingAck.entries.flatMap Prod.snd)
    cases hcurrent.symm.trans (hsame.symm.trans hs)
  live s hs := by cases hs
  nodup := List.nodup_nil
  picked t ht := by cases ht

theorem Told.bye (h : w.Told) (s : Nat) : (w.bye s).Told := by
  obtain ⟨heq, -⟩ | ⟨st, hst, -, ⟨hc, heq⟩ | ⟨-, heq⟩⟩ := w.bye_eq s
  · rw [heq]
    exact h
  · rw [heq]
    have hne : ∀ c, w.current = some c → c ≠ s := fun c hc' heq => hc (heq ▸ hc')
    exact
      { toLines := h.toLines.put hst (h.ordered s st hst).close
        current := fun c hc' => by
          obtain ⟨u, hu, hrest⟩ := h.current c hc'
          exact ⟨u, (OrdMap.get_set_ne _ _ (hne c hc')).trans hu, hrest⟩
        live := h.live
        nodup := h.nodup
        picked := fun t ht => by
          obtain ⟨hheld, c, u, k, hc', hu, hrest⟩ := h.picked t ht
          exact ⟨hheld, c, u, k, hc', (OrdMap.get_set_ne _ _ (hne c (h.live c hc').1)).trans hu, hrest⟩ }
  · rw [heq]
    exact .onClose { h.toLines.put hst (h.ordered s st hst).close with } rfl

theorem Told.attach (h : w.Told) (toRelayId : ρ) : (w.attach toRelayId).Told := by
  have hv : (w.stream.elim w w.bye).Told := by
    cases w.stream with
    | none => exact h
    | some s => exact h.bye s
  rw [Peer.attach]
  generalize w.stream.elim w w.bye = v at hv
  have hnew : v.fresh ∉ v.opening := fun hin => lt_irrefl _ (hv.opening.2 _ hin)
  exact
    { ordered := fun s st hst => by
        obtain ⟨rfl, rfl⟩ | ⟨-, hold⟩ := OrdMap.get_set_some hst
        · exact ⟨rfl, List.nodup_nil, List.forall_mem_nil _, List.forall_mem_nil _⟩
        · exact (hv.ordered s st hold).mono (Nat.le_succ _)
      streams := fun s st hst => by
        obtain ⟨rfl, -⟩ | ⟨-, hold⟩ := OrdMap.get_set_some hst
        · exact Nat.lt_succ_self _
        · exact (hv.streams s st hold).trans (Nat.lt_succ_self _)
      opening := by
        refine ⟨List.nodup_append.mpr ⟨hv.opening.1, List.nodup_singleton _, ?_⟩, fun s hs => ?_⟩
        · rintro a ha b hb rfl
          exact hnew (List.mem_singleton.mp hb ▸ ha)
        · obtain hs | hs := List.mem_append.mp hs
          · exact (hv.opening.2 s hs).trans (Nat.lt_succ_self _)
          · exact List.mem_singleton.mp hs ▸ Nat.lt_succ_self _
      held := hv.held
      current := fun s hs => by
        obtain rfl := Option.some.inj hs
        exact ⟨_, OrdMap.get_set_self .., rfl, rfl⟩
      live := fun s hs => by cases hs
      nodup := List.nodup_nil
      picked := fun t ht => by cases ht }

theorem Told.opened (h : w.Told) (s : Nat) : (w.opened s).Told := by
  rw [Peer.opened]
  by_cases hs : s ∈ w.opening
  · rw [if_pos hs]
    dsimp only
    by_cases hc : w.current = some s
    · rw [if_pos hc]
      have hidle : w.stream = none := by
        cases hlive : w.stream with
        | none => rfl
        | some c =>
            obtain ⟨hcur, hnot⟩ := h.live c hlive
            cases hcur.symm.trans hc
            exact absurd hs hnot
      have hnone : w.picked = [] := by
        refine List.eq_nil_iff_forall_not_mem.mpr fun t ht => ?_
        obtain ⟨-, c, _, _, hlive, -⟩ := h.picked t ht
        cases hidle.symm.trans hlive
      refine Told.sendPicks ?_ hnone
      exact { h with
        opening := ⟨h.opening.1.erase s, fun c hc' => h.opening.2 c (List.mem_of_mem_erase hc')⟩
        live := fun c hlive => by
          obtain rfl := Option.some.inj hlive
          exact ⟨hc, h.opening.1.not_mem_erase⟩
        picked := fun t ht => by
          rw [show _ = _ from hnone] at ht
          cases ht }
    · rw [if_neg hc]
      have hless : ({ w with opening := w.opening.erase s } : Peer ρ τ).Told := { h with
        opening := ⟨h.opening.1.erase s, fun c hc' => h.opening.2 c (List.mem_of_mem_erase hc')⟩
        live := fun c hlive => ⟨(h.live c hlive).1, fun hin => (h.live c hlive).2 (List.mem_of_mem_erase hin)⟩ }
      exact hless.bye s
  · rw [if_neg hs]
    exact h

omit [DecidableEq ρ] in
theorem Told.openFailed (h : w.Told) (s : Nat) : (w.openFailed s).Told :=
  { h with
    opening := ⟨h.opening.1.erase s, fun c hc' => h.opening.2 c (List.mem_of_mem_erase hc')⟩
    live := fun c hlive => ⟨(h.live c hlive).1, fun hin => (h.live c hlive).2 (List.mem_of_mem_erase hin)⟩ }

theorem Told.detach (h : w.Told) : w.detach.Told := by
  have hfree : ({ w with current := none } : Peer ρ τ).Lines := { h.toLines with }
  have hbye : ∀ o : Option Nat, (o.elim { w with current := none } ({ w with current := none } : Peer ρ τ).bye).Lines ∧
      (o.elim { w with current := none } ({ w with current := none } : Peer ρ τ).bye).current = none := by
    intro o
    cases o with
    | none => exact ⟨hfree, rfl⟩
    | some s =>
        rw [Option.elim_some]
        obtain ⟨heq, -⟩ | ⟨st, hst, -, ⟨-, heq⟩ | ⟨hc, -⟩⟩ := ({ w with current := none } : Peer ρ τ).bye_eq s
        · rw [heq]
          exact ⟨hfree, rfl⟩
        · rw [heq]
          exact ⟨hfree.put hst (hfree.ordered s st hst).close, rfl⟩
        · cases hc
  obtain ⟨hlines, hnone⟩ := hbye w.stream
  exact .onClose hlines hnone

theorem Told.subscribe (h : w.Told) (topic : τ) : (w.subscribe topic).Told := by
  rw [Peer.subscribe]
  by_cases ht : topic ∈ w.held
  · rw [if_pos ht]
    exact h
  · rw [if_neg ht]
    have hmore : ({ w with held := w.held ++ [topic] } : Peer ρ τ).Told := { h with
      held := List.nodup_append.mpr ⟨h.held, List.nodup_singleton _, fun a ha b hb hab =>
        ht (List.mem_singleton.mp hb ▸ hab ▸ ha)⟩
      picked := fun t hin => ⟨List.mem_append_left _ (h.picked t hin).1, (h.picked t hin).2⟩ }
    exact hmore.sendPick fun hin => ht (h.picked topic hin).1

theorem Told.unsubscribe (h : w.Told) (topic : τ) : (w.unsubscribe topic).Told := by
  rw [Peer.unsubscribe]
  by_cases ht : topic ∈ w.held
  · rw [if_pos ht]
    have hless : ({ w with held := w.held.erase topic, picked := w.picked.erase topic } : Peer ρ τ).Told := { h with
      held := h.held.erase topic
      nodup := h.nodup.erase topic
      picked := fun t hin => by
        obtain ⟨hne, hin⟩ := h.nodup.mem_erase_iff.mp hin
        obtain ⟨hheld, hrest⟩ := h.picked t hin
        exact ⟨h.held.mem_erase_iff.mpr ⟨hne, hheld⟩, hrest⟩ }
    have hdrop : ∀ s, (({ w with held := w.held.erase topic, picked := w.picked.erase topic } : Peer ρ τ).send s
        (.drop topic)).Told := fun s =>
      hless.send s (send_fresh _ s _).ge (List.forall_mem_nil _) fun t hin o => if_neg fun (heq : topic = t) =>
        h.nodup.not_mem_erase (heq ▸ hin)
    have hall : ∀ o : Option Nat, (o.elim { w with held := w.held.erase topic, picked := w.picked.erase topic }
        fun s => ({ w with held := w.held.erase topic, picked := w.picked.erase topic } : Peer ρ τ).send s
          (.drop topic)).Told := by
      intro o
      cases o with
      | none => exact hless
      | some s => exact hdrop s
    exact hall w.stream
  · rw [if_neg ht]
    exact h

/-! ## Publishes -/

theorem Told.publish (h : w.Told) (topic : τ) (data : Bytes) : (w.publish topic data).Told := by
  rw [Peer.publish]
  cases w.stream with
  | none => exact h
  | some s =>
      have hsent : ({ w.send s (.push topic data w.fresh) with fresh := w.fresh + 1 } : Peer ρ τ).Told :=
        h.send s (Nat.le_succ _) (List.forall_mem_nil _) fun _ _ _ => rfl
      exact { hsent with }

theorem Told.timeout (h : w.Told) (k : Nat) : (w.timeout k).Told := by
  rw [Peer.timeout]
  split
  · exact h
  · split
    · exact h
    · refine Told.settle ?_ k none
      exact { h with }

/-! ## The relay -/

theorem Told.serve (h : w.Told) (s : Nat) (ok : Bool) (n : Nat) : (w.serve s ok n).Told := by
  rw [Peer.serve]
  cases hst : w.streams.get s with
  | none => exact h
  | some st =>
      dsimp only
      cases hup : st.up with
      | nil => exact h
      | cons f fs =>
          have hord := h.ordered s st hst
          refine h.put hst { hord with
            order := ?_
            said := fun g hg => ?_ } rfl rfl (fun g hg => List.mem_append_left _ hg) fun _ _ => rfl
          · have hcons : asks (f :: fs) = asks [f] ++ asks fs := asks_append [f] fs
            rw [answers_append, answers_answer, List.append_assoc, ← hcons, ← hup, hord.order]
          · obtain hg | hg := List.mem_append.mp hg
            · exact List.mem_append_left _ (hord.said g hg)
            · exact List.mem_append_right _ hg

theorem Told.relayed (h : w.Told) (s : Nat) (frm : String) (topic : τ) (data : Bytes) :
    (w.relayed s frm topic data).Told := by
  rw [Peer.relayed]
  cases hst : w.streams.get s with
  | none => exact h
  | some st =>
      have hord := h.ordered s st hst
      refine h.put hst { hord with
        order := ?_
        said := fun g hg => ?_ } rfl rfl (fun g hg => List.mem_append_left _ hg) fun _ _ => rfl
      · rw [answers_append]
        exact (List.append_nil _).symm ▸ hord.order
      · obtain hg | hg := List.mem_append.mp hg
        · exact List.mem_append_left _ (hord.said g hg)
        · exact List.mem_append_right _ hg

/-- A frame is handled; a PICKED may make its topic count. -/
theorem Told.onFrame (h : w.Told) {f : Down τ}
    (hf : ∀ t ∈ w.held, t ∉ w.picked → ∀ k ∈ confirms t f,
      ∃ s st, w.stream = some s ∧ w.streams.get s = some st ∧ stands t st.sent = some k ∧ .picked t k ∈ st.said) :
    (w.onFrame f).Told := by
  cases f with
  | deliver frm topic data => exact h
  | picked topic k =>
      rw [Peer.onFrame]
      split
      · rename_i hnew
        obtain ⟨s, st, hs, hst, hrest⟩ := hf topic hnew.1 hnew.2 k (if_pos rfl)
        exact { h with
          nodup := List.nodup_append.mpr ⟨h.nodup, List.nodup_singleton _, fun a ha b hb hab =>
            hnew.2 (List.mem_singleton.mp hb ▸ hab ▸ ha)⟩
          picked := fun t ht => by
            obtain ht | ht := List.mem_append.mp ht
            · exact h.picked t ht
            · obtain rfl := List.mem_singleton.mp ht
              exact ⟨hnew.1, s, st, k, hs, hst, hrest⟩ }
      · exact h
  | refused topic k =>
      exact { h with
        nodup := h.nodup.erase topic
        picked := fun t ht => h.picked t (List.mem_of_mem_erase ht) }
  | ack topic recipients k =>
      rw [Peer.onFrame]
      split
      · exact h
      · exact { h with }
      · refine Told.settle ?_ _ _
        exact { h with }

theorem Told.arrive (h : w.Told) (s : Nat) (hmeets : w.PickMeets (.arrive s)) : (w.arrive s).Told := by
  rw [PickMeets] at hmeets
  rw [Peer.arrive]
  cases hst : w.streams.get s with
  | none => exact h
  | some st =>
      dsimp only
      cases hdown : st.down with
      | nil => exact h
      | cons f fs =>
          have hord := h.ordered s st hst
          have hput : (w.put s { st with down := fs }).Told := by
            refine h.put hst { hord with said := fun g hg => hord.said g ?_ } rfl rfl (fun _ hg => hg) fun _ _ => rfl
            rw [hdown]
            exact List.mem_cons_of_mem f hg
          refine hput.onFrame fun t ht hnot k hk => ?_
          obtain ⟨hs, hstands⟩ := hmeets st hst f (by rw [hdown]; rfl) t ht hnot k hk
          refine ⟨s, _, hs, OrdMap.get_set_self .., hstands, hord.said _ ?_⟩
          rw [hdown, ← show f = .picked t k from ?_]
          · exact List.mem_cons_self
          · cases f with
            | picked t' k' =>
                obtain ⟨ht', hk'⟩ := Option.ite_none_right_eq_some.mp hk
                rw [ht', Option.some.inj hk']
            | refused | ack | deliver => cases hk

theorem Told.act (h : w.Told) {e : Event ρ τ} (hmeets : w.PickMeets e) : (w.act e).Told := by
  cases e with
  | attach toRelayId => exact h.attach toRelayId
  | opened s => exact h.opened s
  | openFailed s => exact h.openFailed s
  | detach => exact h.detach
  | subscribe topic => exact h.subscribe topic
  | unsubscribe topic => exact h.unsubscribe topic
  | publish topic data => exact h.publish topic data
  | timeout k => exact h.timeout k
  | bye s => exact h.bye s
  | serve s ok n => exact h.serve s ok n
  | relayed s frm topic data => exact h.relayed s frm topic data
  | arrive s => exact h.arrive s hmeets

/-- In a run where every PICKED that makes a topic count answers the PICK that stands on the attached stream, whoever
is named as carrying a topic is the attached relay, has answered PICKED to that PICK, and has not refused since. -/
theorem subscribers_carry (h : Reach act PickMeets start w) {t : τ} {r : ρ} (hr : r ∈ w.getSubscribers t) :
    w.Carried t r :=
  (h.invariant .start fun _ _ hs hok => hs.act hok : w.Told).carries hr

/-- Two topics, one refused; one of them dropped and picked again. -/
def pickRun : List (Event String Nat) :=
  [.subscribe 7, .attach "relay", .opened 0, .subscribe 8, .serve 0 true 0, .serve 0 false 0, .arrive 0, .arrive 0,
    .unsubscribe 7, .subscribe 7, .serve 0 true 0, .serve 0 true 0, .arrive 0]

theorem sample_carried : (pickRun.foldl act start).Carried 7 "relay" :=
  subscribers_carry (Admits.reach .start (by decide : Admits act PickMeets start pickRun)) (by decide)

/-- Dropped and picked again before the first answer is handled. -/
def repickRun : List (Event String Nat) :=
  [.attach "relay", .opened 0, .subscribe 7, .serve 0 true 0, .unsubscribe 7, .subscribe 7, .arrive 0, .serve 0 true 0,
    .serve 0 false 0]

/-- The relay counts as carrying the topic, and has refused its PICK. -/
theorem subscribers_mislead : Reach act (fun _ _ => True) start (repickRun.foldl act start) ∧
    "relay" ∈ (repickRun.foldl act start).getSubscribers 7 ∧ ¬ (repickRun.foldl act start).Carried 7 "relay" := by
  refine ⟨Admits.reach .start (.of_forall (fun _ _ => trivial) _ _), by decide, ?_⟩
  rintro ⟨s, st, k, a, b, hs, hst, -, hk, hsaid, -⟩
  have hlive : (repickRun.foldl act start).stream = some 0 := by decide
  cases hs.symm.trans hlive
  have hall : ∀ u ∈ (repickRun.foldl act start).streams.get 0, stands 7 u.sent = some 2 ∧ .picked 7 2 ∉ u.said := by
    decide
  obtain ⟨htwo, hnot⟩ := hall st hst
  cases hk.symm.trans htwo
  exact hnot (hsaid ▸ List.mem_append_right _ List.mem_cons_self)

end Peer

end EncedoChat.Light
