import EncedoChat.Enroll.History
import EncedoChat.Lib.Except
import EncedoChat.Lib.Run

/-!
# Who is admitted by code

Requests come one at a time under a clock that does not go back. A challenge is drawn at random, so none is given out
twice; a signature that verifies was made by the holder of the key.
-/

namespace EncedoChat.Enroll

/-- What is on the disk before the first request. -/
structure Disk where
  list : Option String
  failures : Nat
  locked : Bool
  sane : LOCK_AFTER ≤ failures → locked = true

structure World where
  state : State
  clock : Nat
  /-- who signed what -/
  signed : List (Bytes × String)
  /-- the last event first -/
  history : List Event

/-- The challenges used up. -/
def spent (h : List Event) : List String := h.filterMap Event.spends

/-- The windows that let a device in. -/
def windows (C : Config) (P : Platform) (h : List Event) : List Int := h.filterMap (Event.window C P)

def wrongs (h : List Event) : List Wrong := h.filterMap Event.wrong

/-- The wrong codes since the last unlock. -/
def sinceUnlock (before : Nat) : List Event → Nat
  | [] => before
  | e :: h => if e.unlocks then 0 else sinceUnlock before h + if e.wrong.isSome then 1 else 0

namespace World

variable (C : Config) (P : Platform)

def start (d : Disk) : World := ⟨⟨.empty, .empty, .empty, d.failures, d.locked, d.list⟩, 0, [], []⟩

def act (w : World) (a : Action) : World :=
  let r := w.state.act C P a
  { state := r.1
    clock := (a.clock.map Clock.noted).getD w.clock
    signed := a.signs ++ w.signed
    history := ⟨a, r.2⟩ :: w.history }

/-- The clock does not go back, a challenge is a new one, and what verifies was signed. -/
structure Fair (w : World) (a : Action) : Prop where
  clock : ∀ t, a.clock = some t → w.clock ≤ t.asked
  fresh : ∀ n exp ans, Event.issues C ⟨a, ans⟩ = some (n, exp) → ∀ e ∈ w.history, ∀ exp', e.issues C ≠ some (n, exp')
  ideal : ∀ body sig key text, a.body = some body → Json.asStr (body.field "sig") = some sig →
    P.verify key text sig = true → (key, text) ∈ w.signed

/-- What admits the device `peerId` in the state `w`. -/
structure Admission (d : Disk) (w : World) (body : Json) (t : Clock) (peerId nonce code : String) (window : Int) : Prop where
  ofPeer : Json.asStr (body.field "peerId") = some peerId
  toNonce : Json.asStr (body.field "nonce") = some nonce
  withCode : Json.asStr (body.field "code") = some code
  /-- the challenge was given out and is still good -/
  issued : ∃ e ∈ w.history, ∃ exp, e.issues C = some (nonce, exp) ∧ t.swept ≤ exp
  unspent : nonce ∉ spent w.history
  /-- the device signed with the key of the PeerId -/
  signed : ∃ key, ed25519OfPeerId peerId = some key ∧ (key, enrollMessage C.networkId nonce code) ∈ w.signed
  /-- the code is that of a window near the clock -/
  codeOf : ∃ seed, C.key = some seed ∧ totpAt P.hmac seed window = .ok code
  near : windowOf t.matched - 1 ≤ window ∧ window ≤ windowOf t.matched + 1
  /-- and let nobody in before -/
  fresh : window ∉ windows C P w.history
  unlocked : sinceUnlock d.failures w.history < LOCK_AFTER

end World

/-! ## Challenges -/

section
variable {C : Config} {P : Platform} {s s' : State} {a : Action} {ans : Option Answer}

theorem State.get_sweep {t : Nat} {n : String} {exp : Nat} :
    (s.sweep t).nonces.get n = some exp ↔ s.nonces.get n = some exp ∧ t ≤ exp := by
  rw [State.sweep, OrdMap.get_filter]
  simp

theorem State.get_taken {t : Nat} {n m : String} {exp : Nat} (h : (s.taken t n).nonces.get m = some exp) :
    s.nonces.get m = some exp ∧ m ≠ n := by
  rw [State.taken, OrdMap.get_delete] at h
  split at h
  · cases h
  · exact ⟨(State.get_sweep.mp h).1, ‹_›⟩

theorem State.Answered.spends {body : Json} {ip : String} {t : Clock} {peerId n code : String}
    (h : State.Answered C P s body ip t peerId n code) (hpast : ans.all Answer.pastChallenge = true) :
    Event.spends ⟨.enroll body ip t, ans⟩ = some n :=
  Event.spends_some rfl hpast h.toNonce

/-- A challenge that can be answered is given out now, or could be before and is not used up. -/
theorem State.Moves.nonces (h : State.Moves C P s a s' ans) {n : String} {exp : Nat}
    (hget : s'.nonces.get n = some exp) :
    Event.issues C ⟨a, ans⟩ = some (n, exp) ∨ s.nonces.get n = some exp ∧ Event.spends ⟨a, ans⟩ ≠ some n := by
  have taken : ∀ {t : Nat} {m : String}, Event.spends ⟨a, ans⟩ = some m → (s.taken t m).nonces.get n = some exp →
      s.nonces.get n = some exp ∧ Event.spends ⟨a, ans⟩ ≠ some n := by
    intro t m hs hget
    obtain ⟨hget, hne⟩ := State.get_taken hget
    exact ⟨hget, by simpa [hs] using Ne.symm hne⟩
  cases h with
  | idle _ hs => exact .inr ⟨hget, by simp [hs]⟩
  | swept _ _ hs => exact .inr ⟨(State.get_sweep.mp hget).1, by simp [hs]⟩
  | taken _ _ hs _ => exact .inr (taken hs hget)
  | signInRefused _ _ hs _ => exact .inr (taken hs hget)
  | signedIn _ hs _ => exact .inr (taken hs hget)
  | wrong h => exact .inr (taken (h.spends (by simp)) hget)
  | unlabelled h _ => exact .inr (taken (h.spends rfl) hget)
  | admitted h _ => exact .inr (taken (h.spends (by simp)) hget)
  | issued hi =>
      rw [OrdMap.get_set] at hget
      split at hget
      · rename_i hn
        cases hget
        exact .inl (hn ▸ hi)
      · exact .inr ⟨(State.get_sweep.mp hget).1, by simp [Event.spends, Action.body]⟩
  | unlocked => exact .inr ⟨hget, by simp [Event.spends, Action.body]⟩

/-- A challenge that is used up could be answered. -/
theorem State.Moves.spends (h : State.Moves C P s a s' ans) {n : String} (hs : Event.spends ⟨a, ans⟩ = some n) :
    ∃ exp, s.nonces.get n = some exp := by
  have had : ∀ {t : Nat} {m : String}, Event.spends ⟨a, ans⟩ = some m → (s.sweep t).nonces.has m = true →
      ∃ exp, s.nonces.get n = some exp := by
    intro t m hm hhad
    rw [hm] at hs
    cases hs
    obtain ⟨exp, hexp⟩ := Option.isSome_iff_exists.mp hhad
    exact ⟨exp, (State.get_sweep.mp hexp).1⟩
  cases h with
  | idle _ hn => exact absurd (hn.symm.trans hs) (by simp)
  | swept _ _ hn => exact absurd (hn.symm.trans hs) (by simp)
  | taken _ _ hm hhad => exact had hm hhad
  | signInRefused _ _ hm hhad => exact had hm hhad
  | signedIn _ hm hhad => exact had hm hhad
  | wrong h => exact had (h.spends (by simp)) h.had
  | unlabelled h _ => exact had (h.spends rfl) h.had
  | admitted h _ => exact had (h.spends (by simp)) h.had
  | issued _ => simp [Event.spends, Action.body] at hs
  | unlocked => simp [Event.spends, Action.body] at hs

end

namespace World

variable {C : Config} {P : Platform} {d : Disk} {w : World} {a : Action}

/-- A challenge was given out once and is used up once. -/
structure Challenges (C : Config) (w : World) : Prop where
  known : ∀ n exp, w.state.nonces.get n = some exp → ∃ e ∈ w.history, e.issues C = some (n, exp)
  unspent : ∀ n exp, w.state.nonces.get n = some exp → n ∉ spent w.history
  issued : ∀ n ∈ spent w.history, ∃ e ∈ w.history, ∃ exp, e.issues C = some (n, exp)
  once : (spent w.history).Nodup

theorem spent_act (C : Config) (P : Platform) (w : World) (a : Action) :
    spent (w.act C P a).history = ((Event.spends ⟨a, (w.state.act C P a).2⟩).toList ++ spent w.history) := by
  rw [spent, act, List.filterMap_cons]
  cases Event.spends ⟨a, (w.state.act C P a).2⟩ <;> rfl

theorem Challenges.act (h : Challenges C w) (hok : Fair C P w a) : Challenges C (w.act C P a) := by
  have hm := State.moves C P w.state a
  have hspent := spent_act C P w a
  have older : ∀ n, (∃ e ∈ w.history, ∃ exp, e.issues C = some (n, exp)) →
      ∃ e ∈ (w.act C P a).history, ∃ exp, e.issues C = some (n, exp) := by
    rintro n ⟨e, he, hexp⟩
    exact ⟨e, List.mem_cons_of_mem _ he, hexp⟩
  constructor
  · intro n exp hget
    rcases hm.nonces hget with hi | ⟨hold, -⟩
    · exact ⟨_, List.mem_cons_self, hi⟩
    · obtain ⟨e, he, hexp⟩ := h.known n exp hold
      exact ⟨e, List.mem_cons_of_mem _ he, hexp⟩
  · intro n exp hget hmem
    rw [hspent, List.mem_append, Option.mem_toList] at hmem
    rcases hm.nonces hget with hi | ⟨hold, hne⟩
    · -- a new challenge is not one of those used up
      have hfresh := hok.fresh n exp _ hi
      rcases hmem with hs | hs
      · obtain ⟨exp', hold⟩ := hm.spends hs
        obtain ⟨e, he, hissue⟩ := h.known n exp' hold
        exact hfresh e he exp' hissue
      · obtain ⟨e, he, exp', hissue⟩ := h.issued n hs
        exact hfresh e he exp' hissue
    · rcases hmem with hs | hs
      · exact hne hs
      · exact h.unspent n exp hold hs
  · intro n hmem
    rw [hspent, List.mem_append, Option.mem_toList] at hmem
    rcases hmem with hs | hs
    · obtain ⟨exp, hold⟩ := hm.spends hs
      obtain ⟨e, he, hissue⟩ := h.known n exp hold
      exact older n ⟨e, he, exp, hissue⟩
    · exact older n (h.issued n hs)
  · rw [hspent]
    cases hs : Event.spends ⟨a, (w.state.act C P a).2⟩ with
    | none => exact h.once
    | some n =>
        obtain ⟨exp, hold⟩ := hm.spends hs
        exact List.nodup_cons.mpr ⟨h.unspent n exp hold, h.once⟩

end World

/-! ## Windows -/

section
variable {C : Config} {P : Platform} {s s' : State} {a : Action} {ans : Option Answer} {hmac : Bytes → Bytes → Bytes}

theorem firstWindow_some {key : Bytes} {code : String} {cs : List Int} {k : Int}
    (h : firstWindow hmac key code cs = .ok (some k)) : k ∈ cs ∧ totpAt hmac key k = .ok code := by
  induction cs with
  | nil => cases h
  | cons c cs ih =>
      obtain ⟨at', hat, hrest⟩ := bind_ok.mp h
      by_cases heq : at' = code
      · rw [if_pos heq] at hrest
        cases hrest
        exact ⟨List.mem_cons_self, heq ▸ hat⟩
      · rw [if_neg heq] at hrest
        exact ⟨List.mem_cons_of_mem _ (ih hrest).1, (ih hrest).2⟩

theorem totpMatch_some {key : Bytes} {code : String} {nowMs : Nat} {k : Int}
    (h : totpMatch hmac key code nowMs = .ok (some k)) :
    totpAt hmac key k = .ok code ∧ windowOf nowMs - 1 ≤ k ∧ k ≤ windowOf nowMs + 1 := by
  rw [totpMatch] at h
  split at h
  · obtain ⟨hmem, hcode⟩ := firstWindow_some h
    refine ⟨hcode, ?_⟩
    simp only [List.mem_cons, List.not_mem_nil, or_false] at hmem
    omega
  · cases h

/-- The time from which the window is over for good. -/
def overAt (k : Int) : Int := (k + 2) * (STEP_S * 1000)

/-- While a window is near the clock it is not over. -/
theorem lt_overAt {nowMs : Nat} {k : Int} (h : windowOf nowMs - 1 ≤ k) : (nowMs : Int) < overAt k := by
  rw [windowOf, STEP_S] at h
  rw [overAt, STEP_S]
  omega

/-- Three steps on, a window near the clock is over. -/
theorem overAt_le {nowMs : Nat} {k : Int} (h : k ≤ windowOf nowMs + 1) : overAt k ≤ nowMs + 3 * STEP_S * 1000 := by
  rw [windowOf, STEP_S] at h
  rw [overAt, STEP_S]
  omega

theorem State.Matched.near {t : Clock} {key : Bytes} {code : String} {k : Int}
    (h : State.Matched C P s t key code k) : windowOf t.matched - 1 ≤ k ∧ k ≤ windowOf t.matched + 1 :=
  (totpMatch_some h.matched).2

/-- A used code is kept until its window is over. -/
theorem State.Matched.kept {t : Clock} {key : Bytes} {code : String} {k : Int}
    (h : State.Matched C P s t key code k) : overAt k ≤ ((t.noted + 3 * STEP_S * 1000 : Nat) : Int) := by
  have hover := overAt_le h.near.2
  have := t.matched_le
  push_cast
  omega

theorem State.get_used_sweep {t : Nat} {kc : Int × String} {exp : Nat} :
    (s.sweep t).used.get kc = some exp ↔ s.used.get kc = some exp ∧ t ≤ exp := by
  rw [State.sweep, OrdMap.get_filter]
  simp

/-- A used code is kept, unless its time is over. -/
theorem State.Moves.used (h : State.Moves C P s a s' ans) {k : Int} {code : String} {exp : Nat}
    (hget : s.used.get (k, code) = some exp) (hexp : overAt k ≤ exp) :
    (∃ t, a.clock = some t ∧ overAt k ≤ t.noted) ∨ ∃ exp' : Nat, s'.used.get (k, code) = some exp' ∧ overAt k ≤ exp' := by
  have swept : ∀ {t : Clock} {at' : Nat}, a.clock = some t → at' ≤ t.noted →
      (∃ t, a.clock = some t ∧ overAt k ≤ t.noted) ∨ (s.sweep at').used.get (k, code) = some exp := by
    intro t at' ht hle
    by_cases hlate : at' ≤ exp
    · exact .inr (State.get_used_sweep.mpr ⟨hget, hlate⟩)
    · exact .inl ⟨t, ht, by omega⟩
  have kept : ∀ {t : Clock}, a.clock = some t → s'.used = (s.sweep t.swept).used →
      (∃ t, a.clock = some t ∧ overAt k ≤ t.noted) ∨ ∃ exp' : Nat, s'.used.get (k, code) = some exp' ∧ overAt k ≤ exp' := by
    intro t ht hused
    rcases swept ht (t.swept_le.trans t.matched_le) with hover | hstill
    · exact .inl hover
    · exact .inr ⟨exp, hused ▸ hstill, hexp⟩
  have noted : ∀ {t : Clock} {key : Bytes} {kc : Int × String}, a.clock = some t → State.Matched C P s t key kc.2 kc.1 →
      s'.used = (s.sweep t.swept).used.set kc (t.noted + 3 * STEP_S * 1000) →
      (∃ t, a.clock = some t ∧ overAt k ≤ t.noted) ∨ ∃ exp' : Nat, s'.used.get (k, code) = some exp' ∧ overAt k ≤ exp' := by
    intro t key kc ht hm hused
    rw [hused]
    by_cases heq : (k, code) = kc
    · refine .inr ⟨_, by rw [heq, OrdMap.get_set_self], ?_⟩
      rw [← heq] at hm
      exact hm.kept
    · rw [OrdMap.get_set_ne _ _ heq]
      rcases swept ht (t.swept_le.trans t.matched_le) with hover | hstill
      · exact .inl hover
      · exact .inr ⟨exp, hstill, hexp⟩
  cases h with
  | idle _ _ => exact .inr ⟨exp, hget, hexp⟩
  | swept ht _ _ => exact kept ht rfl
  | taken ht _ _ _ => exact kept ht rfl
  | signInRefused ht _ _ _ => exact kept ht rfl
  | signedIn _ _ _ => exact kept rfl rfl
  | wrong _ => exact kept rfl rfl
  | unlabelled _ hm => exact noted rfl hm rfl
  | admitted _ hm => exact noted rfl hm rfl
  | issued _ =>
      rename_i t _ _
      rcases swept (t := t) rfl (t.asked_le.trans (t.swept_le.trans t.matched_le)) with hover | hstill
      · exact .inl hover
      · exact .inr ⟨exp, hstill, hexp⟩
  | unlocked => exact .inr ⟨exp, hget, hexp⟩

/-- What stands behind a device that is admitted. -/
structure State.Admitted (C : Config) (P : Platform) (s s' : State) (ans : Option Answer) (body : Json) (ip : String)
    (t : Clock) (peerId n code : String) (seed : Bytes) (k : Int) : Prop where
  answered : State.Answered C P s body ip t peerId n code
  matched : State.Matched C P s t seed code k
  used : s'.used.get (k, code) = some (t.noted + 3 * STEP_S * 1000)
  list : ∃ label, s'.list = addToList P.toWriting s.list peerId label t.noted
  window : Event.window C P ⟨.enroll body ip t, ans⟩ = some k

theorem State.Moves.admits (h : State.Moves C P s a s' ans) (hadm : Event.admits ⟨a, ans⟩ = true) :
    ∃ body ip t peerId n code seed k, a = .enroll body ip t ∧
      State.Admitted C P s s' ans body ip t peerId n code seed k := by
  have quiet : Event.Quiet C ⟨a, ans⟩ → False := fun hq => by simp [hq.admits] at hadm
  cases h with
  | idle hq _ => exact (quiet hq).elim
  | swept _ hq _ => exact (quiet hq).elim
  | taken _ hq _ _ => exact (quiet hq).elim
  | signInRefused _ hq _ _ => exact (quiet hq).elim
  | signedIn hq _ _ => exact (quiet hq).elim
  | wrong _ => exact absurd hadm (by simp [Event.admits, Answer.code])
  | unlabelled _ _ => exact absurd hadm (by simp [Event.admits])
  | @admitted body ip t peerId n code label seed k ha hm =>
      refine ⟨body, ip, t, peerId, n, code, seed, k, rfl, ha, hm, OrdMap.get_set_self _ _ _, ⟨label, rfl⟩, ?_⟩
      simp only [Event.window, hm.seed, ha.withCode, hm.matched]
      rfl
  | issued _ => exact absurd hadm (by simp [Event.admits])
  | unlocked => exact absurd hadm (by simp [Event.admits])

theorem Event.admits_of_window {e : Event} {k : Int} (h : e.window C P = some k) : e.admits = true := by
  rw [Event.window] at h
  split at h
  · by_contra hno
    rw [if_neg hno] at h
    cases h
  · cases h

end

namespace World

variable {C : Config} {P : Platform} {d : Disk} {w : World} {a : Action}

structure Windows (C : Config) (P : Platform) (w : World) : Prop where
  kept : ∀ k ∈ windows C P w.history, ∀ seed code, C.key = some seed → totpAt P.hmac seed k = .ok code →
    (∃ exp : Nat, w.state.used.get (k, code) = some exp ∧ overAt k ≤ exp) ∨ overAt k ≤ w.clock
  once : (windows C P w.history).Nodup

theorem windows_act (C : Config) (P : Platform) (w : World) (a : Action) :
    windows C P (w.act C P a).history =
      (Event.window C P ⟨a, (w.state.act C P a).2⟩).toList ++ windows C P w.history := by
  rw [windows, act, List.filterMap_cons]
  cases Event.window C P ⟨a, (w.state.act C P a).2⟩ <;> rfl

theorem clock_le (hok : Fair C P w a) : w.clock ≤ (w.act C P a).clock := by
  rw [act]
  cases ha : a.clock with
  | none => simp
  | some t =>
      have := hok.clock t ha
      have := t.asked_le
      have := t.swept_le
      have := t.matched_le
      simp
      omega

/-- A window that lets a device in has let nobody in before. -/
theorem Windows.fresh (h : Windows C P w) (hok : Fair C P w a) {t : Clock} (ht : a.clock = some t) {seed : Bytes}
    {code : String} {k : Int} (hm : State.Matched C P w.state t seed code k) : k ∉ windows C P w.history := by
  intro hmem
  have hlt := lt_overAt hm.near.1
  have hclock := hok.clock t ht
  have hasked := t.asked_le
  have hswept := t.swept_le
  rcases h.kept k hmem seed code hm.seed (totpMatch_some hm.matched).1 with ⟨exp, hget, hexp⟩ | hover
  · -- the code is still in the table
    have hstill : (w.state.sweep t.swept).used.get (k, code) = some exp :=
      State.get_used_sweep.mpr ⟨hget, by omega⟩
    exact absurd (hm.unused.symm.trans (OrdMap.has_of_get hstill)) (by simp)
  · omega

theorem Windows.act (h : Windows C P w) (hok : Fair C P w a) : Windows C P (w.act C P a) := by
  have hm := State.moves C P w.state a
  have hwindows := windows_act C P w a
  constructor
  · intro k hk seed code hseed hcode
    rw [hwindows, List.mem_append, Option.mem_toList] at hk
    rcases hk with hnew | hold
    · obtain ⟨body, ip, t, peerId, n, code', seed', k', rfl, hadm⟩ := hm.admits (Event.admits_of_window hnew)
      have hk : k' = k := Option.some.inj (hadm.window.symm.trans hnew)
      subst hk
      have hseed' : seed' = seed := Option.some.inj (hadm.matched.seed.symm.trans hseed)
      subst hseed'
      have hcode' : code' = code := Except.ok.inj ((totpMatch_some hadm.matched.matched).1.symm.trans hcode)
      subst hcode'
      exact .inl ⟨_, hadm.used, hadm.matched.kept⟩
    · rcases h.kept k hold seed code hseed hcode with ⟨exp, hget, hexp⟩ | hover
      · rcases hm.used hget hexp with ⟨t, ht, hover⟩ | hstill
        · refine .inr ?_
          rw [World.act, ht]
          exact hover
        · exact .inl hstill
      · have := clock_le hok
        exact .inr (by omega)
  · rw [hwindows]
    cases hw : Event.window C P ⟨a, (w.state.act C P a).2⟩ with
    | none => exact h.once
    | some k =>
        obtain ⟨body, ip, t, peerId, n, code, seed, k', rfl, hadm⟩ := hm.admits (Event.admits_of_window hw)
        have hk : k' = k := Option.some.inj (hadm.window.symm.trans hw)
        subst hk
        exact List.nodup_cons.mpr ⟨h.fresh hok rfl hadm.matched, h.once⟩

end World

/-! ## Wrong codes of an address -/

section
variable {C : Config} {P : Platform} {s s' : State} {a : Action} {ans : Option Answer}

theorem State.recent_failIp {ip ip' : String} {t now : Nat} (h : t ≤ now) :
    (s.failIp ip t).recent ip' now =
      s.recent ip' now ++ if ip' = ip ∧ now < t + PER_IP_WINDOW_MS then [t] else [] := by
  rw [State.failIp, State.recent, OrdMap.get_set]
  by_cases hip : ip' = ip
  · subst hip
    rw [if_pos rfl, Option.getD_some, List.filter_append, State.recent, State.recent, List.filter_filter]
    congr 1
    · apply List.filter_congr
      intro x _
      rw [Bool.and_eq_left_iff_imp]
      simp only [decide_eq_true_eq]
      omega
    · by_cases hnow : now < t + PER_IP_WINDOW_MS
      · simp [hnow]
      · simp [hnow]
  · simp [hip, State.recent]

theorem State.recent_congr {s s' : State} (h : s'.perIp = s.perIp) (ip : String) (now : Nat) :
    s'.recent ip now = s.recent ip now := by
  rw [State.recent, State.recent, h]

/-- What counts against an address is not forgotten, and a wrong code counts. -/
theorem State.Moves.recent (h : State.Moves C P s a s' ans) (ip : String) {now : Nat}
    (hnow : ∀ t, a.clock = some t → t.noted ≤ now) :
    (s.recent ip now).length +
      ((Event.wrong ⟨a, ans⟩).toList.filter (fun x => x.ip = ip ∧ now < x.noted + PER_IP_WINDOW_MS)).length ≤
        (s'.recent ip now).length := by
  have quiet : Event.wrong ⟨a, ans⟩ = none → s'.perIp = s.perIp → (s.recent ip now).length +
      ((Event.wrong ⟨a, ans⟩).toList.filter (fun x => x.ip = ip ∧ now < x.noted + PER_IP_WINDOW_MS)).length ≤
        (s'.recent ip now).length := by
    intro hw hsame
    rw [hw, State.recent_congr hsame]
    simp
  cases h with
  | idle hq _ => exact quiet hq.wrong rfl
  | swept _ hq _ => exact quiet hq.wrong rfl
  | taken _ hq _ _ => exact quiet hq.wrong rfl
  | @signInRefused _ t n ip' _ ht hq _ _ =>
      have hsame : (s.taken t.swept n).recent ip now = s.recent ip now := State.recent_congr rfl ip now
      rw [hq.wrong, State.recent_failIp (hnow _ ht), List.length_append, hsame]
      simp
  | signedIn hq _ _ => exact quiet hq.wrong rfl
  | @wrong body ip' t peerId n code why _ =>
      have hw : Event.wrong ⟨.enroll body ip' t, some (.code why)⟩ = some ⟨ip', t.matched, t.noted⟩ := by
        simp [Event.wrong]
      have hrecent : ((s.taken t.swept n).fail ip' t.noted).recent ip now =
          s.recent ip now ++ if ip = ip' ∧ now < t.noted + PER_IP_WINDOW_MS then [t.noted] else [] :=
        State.recent_failIp (hnow _ rfl)
      rw [hw, hrecent, List.length_append]
      by_cases hin : ip = ip' ∧ now < t.noted + PER_IP_WINDOW_MS
      · rw [if_pos hin]
        simp [hin.1.symm, hin.2]
      · rw [if_neg hin]
        have hin' : ¬(ip' = ip ∧ now < t.noted + PER_IP_WINDOW_MS) := fun h => hin ⟨h.1.symm, h.2⟩
        simp [hin']
  | unlabelled _ _ => exact quiet rfl rfl
  | admitted _ _ => exact quiet (by simp [Event.wrong, Answer.isCode, Answer.ok]) rfl
  | issued _ => exact quiet rfl rfl
  | unlocked => exact quiet rfl rfl

/-- A wrong code is looked at only while the address is not slowed down and the network not locked. -/
theorem State.Moves.wrong' (h : State.Moves C P s a s' ans) {x : Wrong} (hw : Event.wrong ⟨a, ans⟩ = some x) :
    ∃ t, a.clock = some t ∧ x.looked = t.matched ∧ x.noted = t.noted ∧ s.ipBlocked x.ip t.asked = false ∧
      s.locked = false := by
  have quiet : Event.Quiet C ⟨a, ans⟩ → False := fun hq => by simp [hq.wrong] at hw
  cases h with
  | idle hq _ => exact (quiet hq).elim
  | swept _ hq _ => exact (quiet hq).elim
  | taken _ hq _ _ => exact (quiet hq).elim
  | signInRefused _ hq _ _ => exact (quiet hq).elim
  | signedIn hq _ _ => exact (quiet hq).elim
  | wrong ha =>
      simp only [Event.wrong] at hw
      rw [if_pos (by simp)] at hw
      cases hw
      exact ⟨_, rfl, rfl, rfl, ha.free, ha.unlocked⟩
  | unlabelled _ _ => cases hw
  | admitted _ _ => exact absurd hw (by simp [Event.wrong, Answer.isCode, Answer.ok])
  | issued _ => cases hw
  | unlocked => cases hw

/-- The count of wrong codes, and the lock. -/
theorem State.Moves.failures (h : State.Moves C P s a s' ans) :
    s'.failures = (if Event.unlocks ⟨a, ans⟩ then 0 else s.failures + if (Event.wrong ⟨a, ans⟩).isSome then 1 else 0) ∧
      ((LOCK_AFTER ≤ s.failures → s.locked = true) → LOCK_AFTER ≤ s'.failures → s'.locked = true) := by
  have quiet : Event.Quiet C ⟨a, ans⟩ → s'.failures = s.failures → s'.locked = s.locked →
      s'.failures = (if Event.unlocks ⟨a, ans⟩ then 0 else s.failures + if (Event.wrong ⟨a, ans⟩).isSome then 1 else 0) ∧
      ((LOCK_AFTER ≤ s.failures → s.locked = true) → LOCK_AFTER ≤ s'.failures → s'.locked = true) := by
    intro hq hf hl
    rw [hq.unlocks, hq.wrong, hf, hl]
    exact ⟨rfl, id⟩
  cases h with
  | idle hq _ => exact quiet hq rfl rfl
  | swept _ hq _ => exact quiet hq rfl rfl
  | taken _ hq _ _ => exact quiet hq rfl rfl
  | signInRefused _ hq _ _ => exact quiet hq rfl rfl
  | signedIn hq _ _ => exact quiet hq rfl rfl
  | @wrong body ip t peerId n code why _ =>
      refine ⟨by simp [Event.unlocks, Event.wrong, State.fail, State.failIp, State.taken, State.sweep], ?_⟩
      intro _ hmany
      simp only [State.fail, Bool.or_eq_true, decide_eq_true_eq] at hmany ⊢
      exact .inr hmany
  | unlabelled _ _ => exact ⟨rfl, id⟩
  | admitted _ _ => exact ⟨by simp [Event.unlocks, Event.wrong, Answer.isCode, Answer.ok, State.taken, State.sweep], id⟩
  | issued _ => exact ⟨rfl, id⟩
  | unlocked => exact ⟨rfl, fun _ h => absurd h (Nat.not_succ_le_zero _)⟩

end

namespace World

variable {C : Config} {P : Platform} {d : Disk} {w : World} {a : Action}

/-- The wrong codes of an address that were looked at in the 10 minutes from `since`. -/
def within (h : List Event) (ip : String) (since : Nat) : List Wrong :=
  (wrongs h).filter (fun x => x.ip = ip ∧ since ≤ x.looked ∧ x.looked < since + PER_IP_WINDOW_MS)

structure Rates (w : World) : Prop where
  order : ∀ x ∈ wrongs w.history, x.looked ≤ x.noted
  /-- every wrong code of the last 10 minutes counts against its address -/
  counted : ∀ ip now, w.clock ≤ now →
    ((wrongs w.history).filter (fun x => x.ip = ip ∧ now < x.noted + PER_IP_WINDOW_MS)).length ≤
      (w.state.recent ip now).length
  bound : ∀ ip since, (within w.history ip since).length ≤ PER_IP_FAILURES

theorem wrongs_act (C : Config) (P : Platform) (w : World) (a : Action) :
    wrongs (w.act C P a).history = (Event.wrong ⟨a, (w.state.act C P a).2⟩).toList ++ wrongs w.history := by
  rw [wrongs, act, List.filterMap_cons]
  cases Event.wrong ⟨a, (w.state.act C P a).2⟩ <;> rfl

theorem noted_le {t : Clock} (ha : a.clock = some t) : (w.act C P a).clock = t.noted := by
  rw [act, ha]
  rfl

theorem Rates.act (h : Rates w) (hok : Fair C P w a) : Rates (w.act C P a) := by
  have hm := State.moves C P w.state a
  have hwrongs := wrongs_act C P w a
  constructor
  · intro x hx
    rw [hwrongs, List.mem_append, Option.mem_toList] at hx
    rcases hx with hnew | hold
    · obtain ⟨t, -, hlooked, hnoted, -⟩ := hm.wrong' hnew
      rw [hlooked, hnoted]
      exact t.matched_le
    · exact h.order x hold
  · intro ip now hnow
    have hclock := clock_le hok
    have hold := h.counted ip now (hclock.trans hnow)
    have hclocks : ∀ t, a.clock = some t → t.noted ≤ now := fun t ht => noted_le (w := w) ht ▸ hnow
    have hnew := hm.recent ip hclocks
    rw [hwrongs, List.filter_append, List.length_append]
    exact (by omega : _ ≤ _).trans hnew
  · intro ip since
    rw [within, hwrongs, List.filter_append, List.length_append]
    cases hw : Event.wrong ⟨a, (w.state.act C P a).2⟩ with
    | none => simpa [within] using h.bound ip since
    | some x =>
        by_cases hin : x.ip = ip ∧ since ≤ x.looked ∧ x.looked < since + PER_IP_WINDOW_MS
        · obtain ⟨t, ht, hlooked, hnoted, hfree, -⟩ := hm.wrong' hw
          have hasked := t.asked_le
          have hswept := t.swept_le
          -- those looked at in these 10 minutes still count when this one is asked
          have hsub : (within w.history ip since).length ≤
              ((wrongs w.history).filter (fun x => x.ip = ip ∧ t.asked < x.noted + PER_IP_WINDOW_MS)).length := by
            have hboth : within w.history ip since =
                ((wrongs w.history).filter (fun x => x.ip = ip ∧ t.asked < x.noted + PER_IP_WINDOW_MS)).filter
                  (fun x => x.ip = ip ∧ since ≤ x.looked ∧ x.looked < since + PER_IP_WINDOW_MS) := by
              rw [within, List.filter_filter]
              apply List.filter_congr
              intro y hy
              have := h.order y hy
              rw [Bool.eq_iff_iff, Bool.and_eq_true, decide_eq_true_eq, decide_eq_true_eq]
              constructor
              · intro hy
                exact ⟨hy, hy.1, by omega⟩
              · exact And.left
            rw [hboth]
            exact List.length_filter_le _ _
          have hcounted := h.counted ip t.asked (hok.clock t ht)
          have hfew : (w.state.recent ip t.asked).length < PER_IP_FAILURES := by
            rw [hin.1, State.ipBlocked, decide_eq_false_iff_not] at hfree
            omega
          have hone : (([x] : List Wrong).filter
              (fun x => x.ip = ip ∧ since ≤ x.looked ∧ x.looked < since + PER_IP_WINDOW_MS)).length ≤ 1 :=
            List.length_filter_le _ _
          rw [within] at hsub
          show (List.filter _ [x]).length + _ ≤ _
          omega
        · simpa [hin, within] using h.bound ip since

/-! ## The lock and the list -/

structure Locks (d : Disk) (w : World) : Prop where
  counted : w.state.failures = sinceUnlock d.failures w.history
  locked : LOCK_AFTER ≤ w.state.failures → w.state.locked = true

theorem Locks.act (h : Locks d w) : Locks d (w.act C P a) := by
  obtain ⟨hcount, hlock⟩ := (State.moves C P w.state a).failures
  constructor
  · show (w.state.act C P a).1.failures = sinceUnlock d.failures (_ :: w.history)
    rw [hcount, sinceUnlock, h.counted]
  · exact hlock h.locked

/-- Only a device that is admitted comes onto the list. -/
theorem list_enroll {s s' : State} {body : Json} {ip : String} {t : Clock} {ans : Option Answer}
    (h : State.Moves C P s (.enroll body ip t) s' ans) :
    s'.list = s.list ∨ Event.admits ⟨.enroll body ip t, ans⟩ = true := by
  cases h with
  | idle _ _ => exact .inl rfl
  | swept _ _ _ => exact .inl rfl
  | taken _ _ _ _ => exact .inl rfl
  | signInRefused _ _ _ _ => exact .inl rfl
  | wrong _ => exact .inl rfl
  | unlabelled _ _ => exact .inl rfl
  | admitted _ _ => exact .inr rfl

/-! ## Every run -/

structure Inv (C : Config) (P : Platform) (d : Disk) (w : World) : Prop where
  challenges : Challenges C w
  windows : Windows C P w
  rates : Rates w
  locks : Locks d w

theorem Inv.start (C : Config) (P : Platform) (d : Disk) : Inv C P d (start d) where
  challenges := ⟨by simp [World.start], by simp [World.start], by simp [World.start, spent], List.nodup_nil⟩
  windows := ⟨by simp [World.start, Enroll.windows], List.nodup_nil⟩
  rates := ⟨by simp [World.start, wrongs], by simp [World.start, wrongs], by simp [World.start, within, wrongs]⟩
  locks := ⟨rfl, d.sane⟩

theorem Inv.reach (h : Reach (act C P) (Fair C P) (World.start d) w) : Inv C P d w :=
  h.invariant (Inv.start C P d)
    (fun _ _ hi hok => ⟨hi.challenges.act hok, hi.windows.act hok, hi.rates.act hok, hi.locks.act⟩)

/-- A good signature was made by the holder of the key in the PeerId. -/
theorem signed_of_signedBy {peerId msg sig : String} {body : Json} (hok : Fair C P w a) (ha : a.body = some body)
    (hsig : Json.asStr (body.field "sig") = some sig) (h : signedBy P peerId msg sig = true) :
    ∃ key, ed25519OfPeerId peerId = some key ∧ (key, msg) ∈ w.signed := by
  rw [signedBy] at h
  split at h
  · cases h
  · rename_i key hkey
    exact ⟨key, hkey, hok.ideal body sig key msg ha hsig h⟩

theorem Inv.admission (hi : Inv C P d w) {body : Json} {ip : String} {t : Clock} (hok : Fair C P w (.enroll body ip t))
    {s' : State} {ans : Option Answer} {peerId n code : String} {seed : Bytes} {k : Int}
    (h : State.Admitted C P w.state s' ans body ip t peerId n code seed k) :
    Admission C P d w body t peerId n code k := by
  obtain ⟨exp, hexp⟩ := Option.isSome_iff_exists.mp h.answered.had
  obtain ⟨hget, hgood⟩ := State.get_sweep.mp hexp
  obtain ⟨e, he, hissue⟩ := hi.challenges.known n exp hget
  obtain ⟨sig, hsig, hsigned⟩ := h.answered.signed
  obtain ⟨hcode, hnear⟩ := totpMatch_some h.matched.matched
  refine ⟨h.answered.ofPeer, h.answered.toNonce, h.answered.withCode, ⟨e, he, exp, hissue, hgood⟩,
    hi.challenges.unspent n exp hget, signed_of_signedBy hok rfl hsig hsigned, ⟨seed, h.matched.seed, hcode⟩, hnear,
    hi.windows.fresh hok rfl h.matched, ?_⟩
  by_contra hmany
  have hlocked := hi.locks.locked (hi.locks.counted ▸ Nat.not_lt.mp hmany)
  exact absurd (h.answered.unlocked.symm.trans hlocked) (by simp)

/-- A device comes onto the list by code only with a challenge given out, good and not used up, signed for by the key of
its PeerId, and with the code of a window near the clock that let nobody in; the list then has that device more and is
otherwise as it was. A challenge is used up once, a window lets one device in, and an address has five wrong codes in
any 10 minutes. -/
theorem by_code (h : Reach (act C P) (Fair C P) (start d) w) :
    (∀ body ip t, Fair C P w (.enroll body ip t) →
      (Event.admits ⟨.enroll body ip t, (w.state.enroll C P body ip t).2⟩ = true ∨
        listed (w.state.enroll C P body ip t).1.list ≠ listed w.state.list) →
      ∃ peerId nonce code window, Admission C P d w body t peerId nonce code window ∧
        listed (w.state.enroll C P body ip t).1.list =
          if peerId ∈ listed w.state.list then listed w.state.list else listed w.state.list ++ [peerId]) ∧
      (spent w.history).Nodup ∧ (windows C P w.history).Nodup ∧
      ∀ ip since, (within w.history ip since).length ≤ PER_IP_FAILURES := by
  have hi := Inv.reach h
  refine ⟨?_, hi.challenges.once, hi.windows.once, hi.rates.bound⟩
  intro body ip t hok hadmits
  have hm := State.moves C P w.state (.enroll body ip t)
  have hadm : Event.admits ⟨.enroll body ip t, (w.state.enroll C P body ip t).2⟩ = true := by
    rcases hadmits with hadm | hlist
    · exact hadm
    · rcases list_enroll hm with hsame | hadm
      · exact absurd (congrArg listed hsame) hlist
      · exact hadm
  obtain ⟨body', ip', t', peerId, n, code, seed, k, heq, ha⟩ := hm.admits hadm
  cases heq
  have had := hi.admission hok ha
  obtain ⟨key, hkey, -⟩ := had.signed
  obtain ⟨label, hlist⟩ := ha.list
  refine ⟨peerId, n, code, k, had, ?_⟩
  have hlist' : (w.state.enroll C P body ip t).1.list = addToList P.toWriting w.state.list peerId label t.noted := hlist
  rw [hlist', listed_addToList _ (isPeerId_of_key hkey)]

/-! ## A device that is admitted -/

def samplePeer : String := "12D3KooWQK1wnefoLrcVHbbnf5tLzbopUd3K3bFAoJpA7YJgL5pV"

def sampleKey : Bytes :=
  [215, 90, 152, 1, 130, 177, 10, 183, 213, 75, 254, 211, 201, 100, 7, 58, 14, 225, 114, 243, 218, 166, 35, 37, 175, 2,
    26, 104, 247, 7, 81, 26]

def sampleSeed : Bytes := "12345678901234567890".toList.map (fun c => UInt8.ofNat c.toNat)

def sampleSig : String := "MSaHvB4al9EQMlEpv9VjR+8eCGA8MOjXN/a1jeoQDMypnn9pzOCHnbpnPYrEnDav8MnJDzIaJ3nF6ER4tXV9BA=="

/-- One signature and one code of the platform's. -/
def samplePlatform : Platform where
  word c := c.isAlphanum
  iso _ := "1970-01-01T00:00:59.000Z"
  word_newline := by decide
  iso_newline _ := by decide
  hmac key data :=
    if key = sampleSeed ∧ data = Bytes.u64be 1 then
      [0x75, 0xa4, 0x8a, 0x19, 0xd4, 0xcb, 0xe1, 0x00, 0x64, 0x4e, 0x8a, 0xc1, 0x39, 0x7e, 0xea, 0x74, 0x7a, 0x2d, 0x33,
        0xab]
    else []
  verify key text sig := key = sampleKey && text = enrollMessage "net" "n1" "94287082" && sig = sampleSig
  numText _ := ""

def sampleConfig : Config := ⟨"net", some sampleSeed, none⟩

def sampleDisk : Disk := ⟨some "# the office", 0, false, by decide⟩

def sampleClock : Clock := ⟨59000, 59000, 59000, 59000, by decide, by decide, by decide⟩

def sampleBody : Json :=
  .obj [("peerId", .str samplePeer), ("nonce", .str "n1"), ("code", .str "94287082"), ("sig", .str sampleSig)]

/-- The key signs and a challenge is given out. -/
def sampleWorld : World :=
  ((start sampleDisk).act sampleConfig samplePlatform (.sign sampleKey (enrollMessage "net" "n1" "94287082"))).act
    sampleConfig samplePlatform (.challenge "" "n1" (.error "") sampleClock)

theorem sampleWorld_reached : Reach (act sampleConfig samplePlatform) (Fair sampleConfig samplePlatform)
    (start sampleDisk) sampleWorld := by
  refine .step _ (.step _ .start ?_) ?_
  · refine ⟨?_, ?_, ?_⟩
    · intro t ht
      cases ht
    · intro n exp ans hi
      cases hi
    · intro body sig key text hbody
      cases hbody
  · refine ⟨?_, ?_, ?_⟩
    · intro t ht
      cases ht
      decide
    · intro n exp ans _ e he exp' hi
      cases List.mem_singleton.mp he
      cases hi
    · intro body sig key text hbody
      cases hbody

theorem sample_fair : Fair sampleConfig samplePlatform sampleWorld (.enroll sampleBody "10.0.0.1" sampleClock) := by
  refine ⟨?_, ?_, ?_⟩
  · intro t ht
    cases ht
    decide
  · intro n exp ans hi
    cases hi
  · intro body sig key text _ _ hverify
    simp only [samplePlatform, Bool.and_eq_true, decide_eq_true_eq] at hverify
    rw [hverify.1.1, hverify.1.2]
    exact List.mem_cons_self

theorem sample_by_code : ∃ peerId nonce code window,
    Admission sampleConfig samplePlatform sampleDisk sampleWorld sampleBody sampleClock peerId nonce code window ∧
      listed (sampleWorld.state.enroll sampleConfig samplePlatform sampleBody "10.0.0.1" sampleClock).1.list =
        if peerId ∈ listed sampleWorld.state.list then listed sampleWorld.state.list
        else listed sampleWorld.state.list ++ [peerId] :=
  (by_code sampleWorld_reached).1 sampleBody "10.0.0.1" sampleClock sample_fair (.inl (by decide +kernel))

end World

end EncedoChat.Enroll
