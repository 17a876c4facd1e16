import Mathlib.Data.List.Induction
import EncedoChat.Room.Holds
import EncedoChat.Room.Pair

/-!
# The turns of a room

A turn builds at most one envelope, under the next sequence number, and `seenSeq` is what has been opened since each
stream was forgotten.
-/

namespace EncedoChat.Room

variable {β : Type}

namespace Call

/-- A call that neither builds, opens, forgets nor shows a message. -/
def idle : Call β → Bool
  | makes _ | opened _ _ | forgot _ | onMessage _ _ _ => false
  | _ => true

end Call

/-- The frames opened under a PeerId since its stream was last forgotten. -/
def remembered (p : PeerId) (log : List (Call β)) : List (Frame β) :=
  log.foldl (fun fs call => match call with
    | .forgot q => if q = p then [] else fs
    | .opened q f => if q = p then fs ++ [f] else fs
    | _ => fs) []

theorem remembered_append (p : PeerId) (log : List (Call β)) (call : Call β) :
    remembered p (log ++ [call]) = match call with
      | .forgot q => if q = p then [] else remembered p log
      | .opened q f => if q = p then remembered p log ++ [f] else remembered p log
      | _ => remembered p log := by
  rw [remembered, List.foldl_append]
  rfl

/-- Calls that neither open nor forget change nothing. -/
theorem remembered_still (p : PeerId) {log calls : List (Call β)}
    (h : ∀ call ∈ calls, (∀ q f, call ≠ .opened q f) ∧ ∀ q, call ≠ .forgot q) :
    remembered p (log ++ calls) = remembered p log := by
  induction calls generalizing log with
  | nil => rw [List.append_nil]
  | cons call calls ih =>
      rw [← List.singleton_append, ← List.append_assoc, ih fun c hc => h c (List.mem_cons_of_mem _ hc),
        remembered_append]
      obtain ⟨hopened, hforgot⟩ := h call (List.mem_cons_self ..)
      cases call with
      | opened q f => exact absurd rfl (hopened q f)
      | forgot q => exact absurd rfl (hforgot q)
      | _ => rfl

theorem mem_of_remembered {p : PeerId} {log : List (Call β)} {f : Frame β} (h : f ∈ remembered p log) :
    .opened p f ∈ log := by
  induction log using List.reverseRecOn with
  | nil => cases h
  | append_singleton log call ih =>
      rw [remembered_append] at h
      cases call with
      | forgot q =>
          dsimp only at h
          split at h
          · cases h
          · exact List.mem_append_left _ (ih h)
      | opened q g =>
          dsimp only at h
          split at h
          · rename_i hq
            rcases List.mem_append.mp h with h | h
            · exact List.mem_append_left _ (ih h)
            · cases List.mem_singleton.mp h
              subst hq
              exact List.mem_append_right _ (List.mem_singleton_self _)
          · exact List.mem_append_left _ (ih h)
      | _ => exact List.mem_append_left _ (ih h)

namespace Chat

/-- Every envelope a room may still send satisfies `P`. -/
structure Holds (P : Envelope β → Prop) (c : Chat β) : Prop where
  out : c.out.Holds P
  queued : ∀ env ∈ c.queued, P env
  sealing : ∀ env ∈ c.sealing, P env
  skdRepeats : ∀ env ∈ c.skdRepeats, P env

theorem Holds.mono {P Q : Envelope β → Prop} {c : Chat β} (h : c.Holds P) (hPQ : ∀ e, P e → Q e) : c.Holds Q :=
  ⟨⟨fun k v hv => hPQ _ (h.out.pending k v hv), fun k v hv => hPQ _ (h.out.resendable k v hv),
    fun k v hv => hPQ _ (h.out.parked k v hv), fun k v hv => hPQ _ (h.out.timers k v hv)⟩,
    fun e he => hPQ _ (h.queued e he), fun e he => hPQ _ (h.sealing e he), fun e he => hPQ _ (h.skdRepeats e he)⟩

/-- `seenSeq` has the sequence numbers of what was opened since the stream was forgotten. -/
def Seen (c : Chat β) (log : List (Call β)) : Prop :=
  ∀ p n, (p, n) ∈ c.seenSeq ↔ ∃ f ∈ remembered p log, f.env.t.deduped = true ∧ f.env.seq = n

/-- A turn that builds nothing and opens nothing. -/
structure Keeps (c : Chat β) (r : Chat β × List (Call β)) : Prop where
  seq : r.1.seq = c.seq
  holds : ∀ P, c.Holds P → r.1.Holds P
  seen : ∀ log, c.Seen log → r.1.Seen (log ++ r.2)
  calls : ∀ call ∈ r.2, call.idle = true ∨ ∃ q, call = .forgot q

theorem Seen.still {c c' : Chat β} {log calls : List (Call β)} (h : c.Seen log) (hseen : c'.seenSeq = c.seenSeq)
    (hcalls : ∀ call ∈ calls, (∀ q f, call ≠ .opened q f) ∧ ∀ q, call ≠ .forgot q) : c'.Seen (log ++ calls) := by
  intro p n
  rw [hseen, remembered_still p hcalls]
  exact h p n

theorem not_opened_of_idle {call : Call β} (h : call.idle = true) :
    (∀ q f, call ≠ .opened q f) ∧ ∀ q, call ≠ .forgot q := by
  constructor
  · rintro q f rfl
    cases h
  · rintro q rfl
    cases h

namespace Keeps

variable {c : Chat β} {r r' : Chat β × List (Call β)}

theorem refl (c : Chat β) : Keeps c (c, []) :=
  ⟨rfl, fun _ h => h, fun log h => by rwa [List.append_nil], fun _ h => nomatch h⟩

theorem trans (h : Keeps c r) (h' : Keeps r.1 r') : Keeps c (r'.1, r.2 ++ r'.2) := by
  refine ⟨h'.seq.trans h.seq, fun P hc => h'.holds P (h.holds P hc), ?_, ?_⟩
  · intro log hlog
    rw [← List.append_assoc]
    exact h'.seen _ (h.seen log hlog)
  · intro call hcall
    rcases List.mem_append.mp hcall with hcall | hcall
    · exact h.calls call hcall
    · exact h'.calls call hcall

/-- What leaves the stream state alone. -/
theorem of_still (hseq : r.1.seq = c.seq) (hseen : r.1.seenSeq = c.seenSeq) (hholds : ∀ P, c.Holds P → r.1.Holds P)
    (hcalls : ∀ call ∈ r.2, call.idle = true) : Keeps c r :=
  ⟨hseq, hholds, fun _ h => h.still hseen fun call hc => not_opened_of_idle (hcalls call hc),
    fun call hc => .inl (hcalls call hc)⟩

end Keeps

/-! ## Turns that build nothing -/

theorem Holds.join {P : Envelope β → Prop} (self : PeerId) : (Chat.join self : Chat β).Holds P :=
  ⟨.empty, (fun _ h => nomatch h), (fun _ h => nomatch h), (fun _ h => nomatch h)⟩

theorem Holds.emitContent {P : Envelope β → Prop} {c : Chat β} (h : c.Holds P) (S : Settings) {env : Envelope β}
    (henv : P env) : (c.emitContent S env).Holds P := by
  have hsnoc : ∀ {envs : List (Envelope β)}, (∀ e ∈ envs, P e) → ∀ e ∈ envs ++ [env], P e := by
    intro envs henvs e he
    rcases List.mem_append.mp he with he | he
    · exact henvs e he
    · exact List.mem_singleton.mp he ▸ henv
  rw [Chat.emitContent]
  split
  · split
    · exact { h with queued := hsnoc h.queued }
    · exact h
  · exact { h with sealing := hsnoc h.sealing }

theorem emitContent_same (S : Settings) (c : Chat β) (env : Envelope β) :
    (c.emitContent S env).seq = c.seq ∧ (c.emitContent S env).seenSeq = c.seenSeq ∧
      (c.emitContent S env).out = c.out := by
  rw [emitContent]
  split
  · split <;> exact ⟨rfl, rfl, rfl⟩
  · exact ⟨rfl, rfl, rfl⟩

theorem perform_same (S : Settings) (c : Chat β) (r : Outbox (Envelope β) × List (Effect (Envelope β))) :
    (c.perform S r).1.seq = c.seq ∧ (c.perform S r).1.seenSeq = c.seenSeq := by
  have hloop : ∀ (es : List (Effect (Envelope β))) (d : Chat β),
      (es.foldl (performOne S) d).seq = d.seq ∧ (es.foldl (performOne S) d).seenSeq = d.seenSeq := by
    intro es
    induction es with
    | nil => exact fun d => ⟨rfl, rfl⟩
    | cons e es ih =>
        intro d
        obtain ⟨hseq, hseen⟩ := ih (performOne S d e)
        cases e with
        | emit env =>
            obtain ⟨hseq', hseen', -⟩ := emitContent_same S d env
            exact ⟨hseq.trans hseq', hseen.trans hseen'⟩
        | _ => exact ⟨hseq, hseen⟩
  exact hloop r.2 _

theorem Holds.perform {P : Envelope β → Prop} {c : Chat β} (h : c.Holds P) (S : Settings)
    {r : Outbox (Envelope β) × List (Effect (Envelope β))} (hr : Outbox.HoldsTurn P r) : (c.perform S r).1.Holds P := by
  have hloop : ∀ (es : List (Effect (Envelope β))) (d : Chat β), d.Holds P → (∀ env, .emit env ∈ es → P env) →
      (es.foldl (performOne S) d).Holds P := by
    intro es
    induction es with
    | nil => exact fun d hd _ => hd
    | cons e es ih =>
        intro d hd hes
        refine ih _ ?_ fun env he => hes env (List.mem_cons_of_mem _ he)
        cases e with
        | emit env => exact hd.emitContent S (hes env (List.mem_cons_self ..))
        | _ => exact hd
  exact hloop r.2 _ { h with out := hr.1 } hr.2

theorem perform_idle (S : Settings) (c : Chat β) (r : Outbox (Envelope β) × List (Effect (Envelope β))) :
    ∀ call ∈ (c.perform S r).2, call.idle = true := by
  intro call hcall
  obtain ⟨e, -, rfl⟩ := List.mem_map.mp hcall
  rfl

/-- A turn of the outbox that keeps what its messages satisfy. -/
theorem Keeps.perform {c : Chat β} {r : Outbox (Envelope β) × List (Effect (Envelope β))} (S : Settings)
    (h : ∀ P, c.out.Holds P → Outbox.HoldsTurn P r) : Keeps c (c.perform S r) :=
  .of_still (perform_same S c r).1 (perform_same S c r).2 (fun P hc => hc.perform S (h P hc.out))
    (perform_idle S c r)

theorem Keeps.onSession (S : Settings) (c : Chat β) (now : Time) (direct : Bool) :
    Keeps c (c.perform S (c.out.onSession S.budget (c.moment now direct))) :=
  .perform S fun _ h => h.onSession

theorem Keeps.touch (c : Chat β) (peer : PeerId) (now : Time) : Keeps c (c.touch peer now, []) :=
  .of_still rfl rfl (fun _ h => { h with }) fun _ h => nomatch h

theorem Keeps.repeatSkd (S : Settings) (c : Chat β) (n : Nat) : Keeps c (c.repeatSkd S n, []) := by
  rw [Chat.repeatSkd]
  cases hn : c.skdRepeats[n]? with
  | none => exact .refl c
  | some env =>
      obtain ⟨hseq, hseen, -⟩ := emitContent_same S c env
      apply Keeps.of_still hseq hseen
      · exact fun P h => h.emitContent S (h.skdRepeats env (List.mem_of_getElem? hn))
      · exact fun _ h => nomatch h

theorem Keeps.flushQueued (c : Chat β) : Keeps c (c.flushQueued, []) := by
  rw [Chat.flushQueued]
  split
  · exact .refl c
  · apply Keeps.of_still (c := c) rfl rfl
    · intro P h
      refine { h with queued := (fun _ he => nomatch he), sealing := ?_ }
      intro env he
      rcases List.mem_append.mp he with he | he
      · exact h.sealing env he
      · exact h.queued env he
    · exact fun _ h => nomatch h

/-! ## Turns that forget -/

theorem Seen.forget {c c' : Chat β} {log : List (Call β)} {peer : PeerId} (h : c.Seen log)
    (hseen : c'.seenSeq = (c.forgetStream peer).seenSeq) : c'.Seen (log ++ [.forgot peer]) := by
  intro p n
  rw [hseen, forgetStream, remembered_append]
  simp only [List.mem_filter, decide_eq_true_eq, ne_eq]
  by_cases hp : peer = p
  · simp [hp]
  · rw [if_neg hp, h p n]
    simp [Ne.symm hp]

theorem Keeps.forget {c c' : Chat β} {peer : PeerId} (hseq : c'.seq = c.seq)
    (hseen : c'.seenSeq = (c.forgetStream peer).seenSeq) (hholds : ∀ P, c.Holds P → c'.Holds P) :
    Keeps c (c', [.forgot peer]) :=
  ⟨hseq, hholds, fun _ h => h.forget hseen, fun _ hcall => .inr ⟨peer, List.mem_singleton.mp hcall⟩⟩

theorem Keeps.retire {c : Chat β} {r : Chat β × List (Call β)} (h : Keeps c r) (old : PeerId) :
    Keeps c (Chat.retire r old) := by
  have hforget : Keeps r.1 ({ (r.1.forgetPeer old).1 with
      lastSeen := (r.1.forgetPeer old).1.lastSeen.delete old }, (r.1.forgetPeer old).2) :=
    .forget rfl rfl fun _ h => { h with }
  exact h.trans hforget

theorem Keeps.retireAll {c : Chat β} {r : Chat β × List (Call β)} (h : Keeps c r) (peers : List PeerId) :
    Keeps c (peers.foldl Chat.retire r) := by
  induction peers generalizing r with
  | nil => exact h
  | cons old peers ih => exact ih (h.retire old)

theorem Keeps.retireOtherPeers (S : Settings) (c : Chat β) (keep : PeerId) (now : Time) :
    Keeps c (c.retireOtherPeers S keep now) :=
  (Keeps.refl c).retireAll _

theorem Keeps.replaceSession (c : Chat β) (p : PeerId) (s : SessionId) (now : Time) :
    Keeps c (c.replaceSession p s now, [.forgot p]) := by
  rw [Chat.replaceSession]
  cases c.sessions.get p <;> exact .forget rfl rfl fun _ h => { h with }

theorem Keeps.install (S : Settings) (c : Chat β) (p : PeerId) (s : SessionId) (now : Time) (direct : Bool) :
    Keeps c (c.install S p s now direct) := by
  have hretire := (Keeps.replaceSession c p s now).trans (.retireOtherPeers S _ p now)
  have hflush := hretire.trans (.flushQueued _)
  simpa [Chat.install] using hflush.trans (.onSession S _ now direct)

theorem Keeps.sweep (S : Settings) (c : Chat β) (now : Time) : Keeps c (c.sweep S now) := by
  rw [Chat.sweep]
  have hexpire : Keeps c (({ c with
      lastSeen := c.lastSeen.filter (fun _ t => decide (now - t ≤ S.ttlMs))
      previous := c.previous.filter (fun _ p => decide (now ≤ p.2)) } : Chat β), []) :=
    .of_still rfl rfl (fun _ h => { h with }) fun _ h => nomatch h
  dsimp only
  split
  · exact hexpire.retireAll _
  · exact hexpire

/-! ## Turns that build -/

/-- The envelopes that calls build. -/
def built (calls : List (Call β)) : List (Envelope β) := calls.filterMap Pair.made?

theorem mem_built {calls : List (Call β)} {e : Envelope β} : e ∈ built calls ↔ .makes e ∈ calls := by
  rw [built, List.mem_filterMap]
  constructor
  · rintro ⟨call, hcall, he⟩
    cases call with
    | makes e' => cases he; exact hcall
    | _ => cases he
  · exact fun h => ⟨_, h, rfl⟩

theorem built_append (calls more : List (Call β)) : built (calls ++ more) = built calls ++ built more :=
  List.filterMap_append

theorem built_nil_of {calls : List (Call β)} (h : ∀ e, .makes e ∉ calls) : built calls = [] := by
  apply List.eq_nil_iff_forall_not_mem.mpr
  exact fun e he => h e (mem_built.mp he)

/-- What a turn builds, and what it leaves the room holding. -/
structure Builds (c : Chat β) (r : Chat β × List (Call β)) : Prop where
  few : (built r.2).length ≤ 1
  numbered : ∀ e ∈ built r.2, e.seq = c.seq
  seq : r.1.seq = c.seq + (built r.2).length
  holds : ∀ P, c.Holds P → (∀ e ∈ built r.2, P e) → r.1.Holds P

theorem Builds.unique {c : Chat β} {r : Chat β × List (Call β)} (h : Builds c r) {e e' : Envelope β}
    (he : e ∈ built r.2) (he' : e' ∈ built r.2) : e = e' := by
  have hfew := h.few
  generalize built r.2 = es at he he' hfew
  match es with
  | [] => cases he
  | [_] => exact (List.mem_singleton.mp he).trans (List.mem_singleton.mp he').symm
  | _ :: _ :: _ => exact absurd hfew (by simp)

/-- Older envelopes stay below the next number, and a new one takes it. -/
theorem Builds.seq_lt {c : Chat β} {r : Chat β × List (Call β)} (h : Builds c r) {e : Envelope β}
    (he : e ∈ built r.2) : e.seq < r.1.seq := by
  have hpos : 0 < (built r.2).length := List.length_pos_of_mem he
  have hseq := h.seq
  have hnum := h.numbered e he
  omega

theorem Keeps.built_nil {c : Chat β} {r : Chat β × List (Call β)} (h : Keeps c r) : built r.2 = [] := by
  apply built_nil_of
  intro e he
  obtain hidle | ⟨q, hq⟩ := h.calls _ he
  · cases hidle
  · cases hq

theorem Keeps.builds {c : Chat β} {r : Chat β × List (Call β)} (h : Keeps c r) : Builds c r := by
  have hnil := h.built_nil
  exact ⟨by simp [hnil], by simp [hnil], by simp [hnil, h.seq], fun P hP _ => h.holds P hP⟩

theorem Builds.before {c d : Chat β} {r : Chat β × List (Call β)} (h : Keeps c (d, [])) (hb : Builds d r) :
    Builds c r :=
  ⟨hb.few, fun e he => (hb.numbered e he).trans h.seq, by rw [hb.seq, h.seq], fun P hP => hb.holds P (h.holds P hP)⟩

theorem Builds.after {c : Chat β} {r r' : Chat β × List (Call β)} (hb : Builds c r) (hseq : r'.1.seq = r.1.seq)
    (hholds : ∀ P, r.1.Holds P → r'.1.Holds P) (hcalls : built r'.2 = []) : Builds c (r'.1, r.2 ++ r'.2) := by
  have hbuilt : built (r.2 ++ r'.2) = built r.2 := by rw [built_append, hcalls, List.append_nil]
  refine ⟨?_, ?_, ?_, ?_⟩
  · rw [hbuilt]
    exact hb.few
  · rw [hbuilt]
    exact hb.numbered
  · rw [hbuilt, hseq, hb.seq]
  · rw [hbuilt]
    exact fun P hP hes => hholds P (hb.holds P hP hes)

theorem Builds.sendPlain (S : Settings) (c : Chat β) (t : Kind) (rest : β) (id : MsgId) :
    Builds c (c.sendPlain S t rest id) := by
  have hbuilt : built (c.sendPlain S t rest id).2 = [⟨t, id, c.seq, rest⟩] := rfl
  obtain ⟨hseq, -, -⟩ := emitContent_same S { c with seq := c.seq + 1 } ⟨t, id, c.seq, rest⟩
  refine ⟨by simp [hbuilt], by simp [hbuilt], ?_, ?_⟩
  · rw [hbuilt]
    exact hseq
  · intro P hP hes
    have hnext : ({ c with seq := c.seq + 1 } : Chat β).Holds P := { hP with }
    exact hnext.emitContent S (hes _ (by simp [hbuilt]))

theorem Builds.sendGroupSkd (S : Settings) (c : Chat β) (rest : β) (id : MsgId) (recent : Bool) :
    Builds c (c.sendGroupSkd S rest id recent) := by
  have hplain := Builds.sendPlain S c .groupSkd rest id
  have hbuilt : built (c.sendGroupSkd S rest id recent).2 = [⟨.groupSkd, id, c.seq, rest⟩] := rfl
  refine ⟨by simp [hbuilt], by simp [hbuilt], ?_, ?_⟩
  · rw [Chat.sendGroupSkd]
    dsimp only
    split <;> exact hplain.seq
  · intro P hP hes
    have hsent := hplain.holds P hP hes
    rw [Chat.sendGroupSkd]
    dsimp only
    split
    · refine { hsent with skdRepeats := ?_ }
      intro env henv
      rcases List.mem_append.mp henv with henv | henv
      · exact hsent.skdRepeats env henv
      · exact List.mem_singleton.mp henv ▸ hes _ (by simp [hbuilt, make])
    · exact hsent

theorem Builds.sendSignal (c : Chat β) (rest : β) (id : MsgId) : Builds c (c.sendSignal rest id) := by
  have hbuilt : built (c.sendSignal rest id).2 = [⟨.rtc, id, c.seq, rest⟩] := rfl
  refine ⟨by simp [hbuilt], by simp [hbuilt], ?_, ?_⟩
  · rw [hbuilt, Chat.sendSignal]
    dsimp only [make]
    split <;> rfl
  · intro P hP hes
    rw [Chat.sendSignal]
    dsimp only [make]
    split
    · exact { hP with }
    · refine { hP with sealing := ?_ }
      intro env henv
      rcases List.mem_append.mp henv with henv | henv
      · exact hP.sealing env henv
      · exact List.mem_singleton.mp henv ▸ hes _ (by simp [hbuilt])

theorem Builds.sendTracked (S : Settings) (c : Chat β) (t : Kind) (rest : β) (id : MsgId) (now : Time)
    (direct : Bool) : Builds c (c.sendTracked S t rest id now direct) := by
  have hidle := perform_idle S { c with seq := c.seq + 1 }
    (c.out.send S.budget id ⟨t, id, c.seq, rest⟩ (c.moment now direct))
  have hbuilt : built (c.sendTracked S t rest id now direct).2 = [⟨t, id, c.seq, rest⟩] := by
    have hnil := built_nil_of fun e he => Bool.noConfusion (hidle _ he)
    exact congrArg (⟨t, id, c.seq, rest⟩ :: ·) hnil
  refine ⟨by simp [hbuilt], by simp [hbuilt], ?_, ?_⟩
  · rw [hbuilt]
    exact (perform_same S { c with seq := c.seq + 1 } _).1
  · intro P hP hes
    have hnext : ({ c with seq := c.seq + 1 } : Chat β).Holds P := { hP with }
    exact hnext.perform S (hP.out.send id (hes _ (by simp [hbuilt])))

/-! ## Dispatching an envelope -/

/-- The envelope is handed to the application. -/
def hands (id : MsgId) : Call β → Bool
  | .onMessage _ env _ | .onEdit _ env | .onFile _ env => env.id = id
  | _ => false

/-- A turn that calls once, for the first of a sequence number only. -/
structure FirstOnly (c : Chat β) (p : PeerId) (n : Nat) (Q : Call β → Prop) (r : Chat β × List (Call β)) : Prop where
  seq : r.1.seq = c.seq
  holds : ∀ P, c.Holds P → r.1.Holds P
  seen : ∀ x, x ∈ r.1.seenSeq ↔ x ∈ c.seenSeq ∨ x = (p, n)
  calls : r.2 = [] ∧ (p, n) ∈ c.seenSeq ∨ ∃ call, r.2 = [call] ∧ (p, n) ∉ c.seenSeq ∧ Q call

theorem FirstOnly.once (c : Chat β) (p : PeerId) (env : Envelope β) (call : Call β) :
    FirstOnly c p env.seq (· = call) (c.once p env call) := by
  rw [Chat.once, firstSeq]
  by_cases h : (p, env.seq) ∈ c.seenSeq
  · rw [if_pos h]
    refine ⟨rfl, fun _ hP => hP, ?_, .inl ⟨rfl, h⟩⟩
    intro x
    constructor
    · exact .inl
    · rintro (hx | rfl)
      · exact hx
      · exact h
  · rw [if_neg h]
    exact ⟨rfl, fun _ hP => { hP with }, fun x => by simp, .inr ⟨call, rfl, h, rfl⟩⟩

theorem FirstOnly.showMessage (c : Chat β) (p : PeerId) (env : Envelope β) :
    FirstOnly c p env.seq (fun call => ∃ late, call = .onMessage p env late) (c.showMessage p env) := by
  have horder : ∀ d : Chat β, (d.outOfOrder p env.seq).2.seq = d.seq ∧
      (d.outOfOrder p env.seq).2.seenSeq = d.seenSeq ∧ ∀ P, d.Holds P → (d.outOfOrder p env.seq).2.Holds P := by
    intro d
    rw [outOfOrder]
    cases d.topSeq.get p with
    | none => exact ⟨rfl, rfl, fun _ hP => { hP with }⟩
    | some top =>
        dsimp only
        split
        · exact ⟨rfl, rfl, fun _ hP => { hP with }⟩
        · exact ⟨rfl, rfl, fun _ hP => hP⟩
  rw [Chat.showMessage, firstSeq]
  by_cases h : (p, env.seq) ∈ c.seenSeq
  · rw [if_pos h]
    refine ⟨rfl, fun _ hP => hP, ?_, .inl ⟨rfl, h⟩⟩
    intro x
    constructor
    · exact .inl
    · rintro (hx | rfl)
      · exact hx
      · exact h
  · rw [if_neg h]
    obtain ⟨hseq, hseen, hholds⟩ := horder { c with seenSeq := c.seenSeq ++ [(p, env.seq)] }
    refine ⟨hseq, fun P hP => hholds P { hP with }, ?_, .inr ⟨_, rfl, h, _, rfl⟩⟩
    intro x
    dsimp only
    rw [if_pos rfl, hseen]
    simp

/-- `onMessage` of a message with this id. -/
def shows (id : MsgId) : Call β → Bool
  | .onMessage _ env _ => env.id = id
  | _ => false

/-- What dispatching an envelope does to the room, and calls. -/
structure Dispatched (c : Chat β) (p : PeerId) (env : Envelope β) (ackId : MsgId) (r : Chat β × List (Call β)) :
    Prop where
  builds : Builds c r
  /-- `seenSeq` goes on having what is remembered -/
  seen : ∀ (log : List (Call β)) (f : Frame β), f.env = env → c.Seen log → r.1.Seen (log ++ .opened p f :: r.2)
  unopened : ∀ q f, .opened q f ∉ r.2
  shown : ∀ q e late, .onMessage q e late ∈ r.2 → e = env ∧ (p, env.seq) ∉ c.seenSeq ∧ env.t.deduped = true
  once : ∀ id, r.2.countP (shows id) ≤ 1
  acks : ∀ e ∈ built r.2, e.t = .ack env.id ∧ env.t.confirmed = true ∧ e.id = ackId
  handed : env.t.confirmed = true → (p, env.seq) ∉ c.seenSeq → ∃ call ∈ r.2, hands env.id call = true

theorem Seen.opened {c c' : Chat β} {log calls : List (Call β)} {p : PeerId} {f : Frame β} (h : c.Seen log)
    (hseen : ∀ x, x ∈ c'.seenSeq ↔ x ∈ c.seenSeq ∨ f.env.t.deduped = true ∧ x = (p, f.env.seq))
    (hcalls : ∀ call ∈ calls, (∀ q g, call ≠ .opened q g) ∧ ∀ q, call ≠ .forgot q) :
    c'.Seen (log ++ .opened p f :: calls) := by
  intro q n
  rw [← List.singleton_append, ← List.append_assoc, remembered_still q hcalls, remembered_append, hseen, h q n]
  by_cases hq : p = q
  · subst hq
    simp only [if_pos, List.mem_append, List.mem_singleton, Prod.mk.injEq, true_and]
    constructor
    · rintro (⟨g, hg, hgn⟩ | ⟨hded, rfl⟩)
      · exact ⟨g, .inl hg, hgn⟩
      · exact ⟨f, .inr rfl, hded, rfl⟩
    · rintro ⟨g, hg | rfl, hded, rfl⟩
      · exact .inl ⟨g, hg, hded, rfl⟩
      · exact .inr ⟨hded, rfl⟩
  · simp [hq, Ne.symm hq]

variable {ackId : MsgId}

/-- Envelopes that neither dedup nor confirm: their calls are idle. -/
theorem Dispatched.idle {c : Chat β} {p : PeerId} {env : Envelope β} {r : Chat β × List (Call β)}
    (hded : env.t.deduped = false) (hseq : r.1.seq = c.seq) (hseen : r.1.seenSeq = c.seenSeq)
    (hholds : ∀ P, c.Holds P → r.1.Holds P) (hcalls : ∀ call ∈ r.2, call.idle = true) :
    Dispatched c p env ackId r := by
  have hkeeps : Keeps c r := .of_still hseq hseen hholds hcalls
  have hnone : built r.2 = [] := hkeeps.built_nil
  have hconf : ¬ env.t.confirmed = true := fun h => by
    rw [Kind.deduped_of_confirmed h] at hded
    cases hded
  refine ⟨hkeeps.builds, ?_, ?_, ?_, ?_, by simp [hnone], fun h => absurd h hconf⟩
  · rintro log f rfl hlog
    apply hlog.opened
    · intro x
      simp [hseen, hded]
    · exact fun call hcall => not_opened_of_idle (hcalls call hcall)
  · intro q f h
    cases hcalls _ h
  · intro q e late h
    cases hcalls _ h
  · intro id
    have hzero : r.2.countP (shows id) = 0 := by
      apply List.countP_eq_zero.mpr
      intro call hcall
      have hidle := hcalls call hcall
      cases call <;> first | exact Bool.noConfusion | cases hidle
    rw [hzero]
    exact Nat.zero_le 1

/-- One idle call, whatever came before. -/
theorem Dispatched.calling {c d : Chat β} {p : PeerId} {env : Envelope β} {call : Call β} (h : Keeps c (d, []))
    (hseen : d.seenSeq = c.seenSeq) (hded : env.t.deduped = false) (hcall : call.idle = true) :
    Dispatched c p env ackId (d, [call]) := by
  apply Dispatched.idle (r := (d, [call])) hded h.seq hseen h.holds
  intro x hx
  exact List.mem_singleton.mp hx ▸ hcall

theorem Dispatched.leave (c : Chat β) (p : PeerId) {env : Envelope β} (ht : env.t = .presence .leave) :
    Dispatched c p env ackId (({ c with lastSeen := c.lastSeen.delete p } : Chat β).forgetPeer p) := by
  have hkeeps : Keeps c (({ c with lastSeen := c.lastSeen.delete p } : Chat β).forgetPeer p) :=
    .forget rfl rfl fun _ h => { h with }
  have hnone := hkeeps.built_nil
  refine ⟨hkeeps.builds, ?_, ?_, ?_, ?_, by simp [hnone], by simp [ht, Kind.confirmed]⟩
  · rintro log f rfl hlog
    have hopened : c.Seen (log ++ [.opened p f]) := by
      apply hlog.opened
      · simp [ht, Kind.deduped]
      · exact fun _ h => nomatch h
    have hforgot := hkeeps.seen _ hopened
    rwa [List.append_assoc] at hforgot
  · exact fun q f h => nomatch List.mem_singleton.mp h
  · exact fun q e late h => nomatch List.mem_singleton.mp h
  · exact fun id => Nat.zero_le 1

section
variable {c : Chat β} {p : PeerId} {env : Envelope β} {r : Chat β × List (Call β)} {Q : Call β → Prop}

/-- What a call for a first envelope is. -/
structure Announces (env : Envelope β) (call : Call β) : Prop where
  still : (∀ q f, call ≠ .opened q f) ∧ ∀ q, call ≠ .forgot q
  unbuilt : built [call] = []
  shown : ∀ q e late, call = .onMessage q e late → e = env
  hands : env.t.confirmed = true → hands env.id call = true

theorem Dispatched.first {d : Chat β} {makes : List (Call β)} (hd : Builds c (d, makes)) (hseen : d.seenSeq = c.seenSeq)
    (hmakes : ∀ call ∈ makes, ∃ e, call = .makes e) (hded : env.t.deduped = true) (h : FirstOnly d p env.seq Q r)
    (hQ : ∀ call, Q call → Announces env call)
    (hacks : ∀ e ∈ built makes, e.t = .ack env.id ∧ env.t.confirmed = true ∧ e.id = ackId) :
    Dispatched c p env ackId (r.1, makes ++ r.2) := by
  have hcall : ∀ call ∈ r.2, Announces env call ∧ (p, env.seq) ∉ c.seenSeq := by
    intro call hmem
    obtain ⟨hnil, -⟩ | ⟨call', hr, hnew, hq⟩ := h.calls
    · rw [hnil] at hmem
      cases hmem
    · rw [hr, List.mem_singleton] at hmem
      subst hmem
      exact ⟨hQ _ hq, hseen ▸ hnew⟩
  have hnone : built r.2 = [] := by
    obtain ⟨hnil, -⟩ | ⟨call, hr, -, hq⟩ := h.calls
    · rw [hnil]
      rfl
    · rw [hr]
      exact (hQ call hq).unbuilt
  have hsplit : ∀ call ∈ makes ++ r.2, (∃ e, call = .makes e) ∨ call ∈ r.2 := by
    intro call hmem
    exact (List.mem_append.mp hmem).imp_left (hmakes call)
  refine ⟨hd.after h.seq h.holds hnone, ?_, ?_, ?_, ?_, ?_, ?_⟩
  · rintro log f rfl hlog
    apply hlog.opened
    · intro x
      rw [h.seen, hseen]
      simp [hded]
    · intro call hmem
      obtain ⟨e, rfl⟩ | hmem := hsplit call hmem
      · simp
      · exact (hcall call hmem).1.still
  · intro q f hmem
    obtain ⟨e, he⟩ | hmem := hsplit _ hmem
    · cases he
    · exact (hcall _ hmem).1.still.1 q f rfl
  · intro q e late hmem
    obtain ⟨e', he⟩ | hmem := hsplit _ hmem
    · cases he
    · exact ⟨(hcall _ hmem).1.shown q e late rfl, (hcall _ hmem).2, hded⟩
  · intro id
    have hmade : makes.countP (shows id) = 0 := by
      apply List.countP_eq_zero.mpr
      intro call hmem
      obtain ⟨e, rfl⟩ := hmakes call hmem
      exact Bool.noConfusion
    rw [List.countP_append, hmade, Nat.zero_add]
    obtain ⟨hnil, -⟩ | ⟨call, hr, -, -⟩ := h.calls
    · rw [hnil]
      exact Nat.zero_le 1
    · rw [hr]
      exact List.countP_le_length
  · rw [built_append, hnone, List.append_nil]
    exact hacks
  · intro hconf hnew
    obtain ⟨-, hold⟩ | ⟨call, hr, -, hq⟩ := h.calls
    · exact absurd (hseen ▸ hold) hnew
    · exact ⟨call, by simp [hr], (hQ call hq).hands hconf⟩

end

theorem Announces.of_eq {env : Envelope β} {call : Call β} (h : call.idle = true)
    (hhands : env.t.confirmed = true → Chat.hands env.id call = true) : Announces env call := by
  refine ⟨not_opened_of_idle h, ?_, ?_, hhands⟩
  · apply built_nil_of
    intro e he
    cases List.mem_singleton.mp he
    cases h
  · rintro q e late rfl
    cases h

/-- The turn that confirms. -/
theorem Builds.confirm (S : Settings) (c : Chat β) (p : PeerId) (ref : MsgId) (draw : AckDraw β) (now : Time) :
    Builds c ((c.touch p now).confirm S ref draw.rest draw.id) :=
  .before (.touch c p now) (.sendPlain S _ _ _ _)

theorem confirm_seenSeq (S : Settings) (c : Chat β) (p : PeerId) (ref : MsgId) (draw : AckDraw β) (now : Time) :
    ((c.touch p now).confirm S ref draw.rest draw.id).1.seenSeq = c.seenSeq :=
  (emitContent_same S _ _).2.1

theorem Dispatched.confirming (S : Settings) {c : Chat β} {p : PeerId} {env : Envelope β} (draw : AckDraw β)
    (now : Time) (hconf : env.t.confirmed = true) {Q : Call β → Prop} {r : Chat β × List (Call β)}
    (h : FirstOnly ((c.touch p now).confirm S env.id draw.rest draw.id).1 p env.seq Q r)
    (hQ : ∀ call, Q call → Announces env call) :
    Dispatched c p env draw.id (r.1, ((c.touch p now).confirm S env.id draw.rest draw.id).2 ++ r.2) := by
  apply Dispatched.first (Builds.confirm S c p env.id draw now) (confirm_seenSeq S c p env.id draw now)
  · exact fun call hcall => ⟨_, List.mem_singleton.mp hcall⟩
  · exact Kind.deduped_of_confirmed hconf
  · exact h
  · exact hQ
  · intro e he
    cases List.mem_singleton.mp (mem_built.mp he)
    exact ⟨rfl, hconf, rfl⟩

theorem Dispatched.touching {c : Chat β} {p : PeerId} {env : Envelope β} (now : Time) (hded : env.t.deduped = true)
    (hconf : env.t.confirmed = false) {call : Call β} (hcall : call.idle = true) :
    Dispatched c p env ackId ((c.touch p now).once p env call) := by
  have hcalls : ∀ call', call' = call → Announces env call' := by
    rintro _ rfl
    exact .of_eq hcall fun h => by rw [hconf] at h; cases h
  have h : Dispatched c p env ackId (((c.touch p now).once p env call).1, [] ++ ((c.touch p now).once p env call).2) :=
    .first (Keeps.touch c p now).builds rfl (fun _ h => nomatch h) hded (FirstOnly.once (c.touch p now) p env call)
      hcalls fun _ h => nomatch h
  exact h

theorem dispatched (S : Settings) (c : Chat β) (p : PeerId) (env : Envelope β) (draw : AckDraw β) (now : Time)
    (direct : Bool) : Dispatched c p env draw.id (c.dispatch S p env draw now direct) := by
  rw [dispatch]
  cases ht : env.t with
  | msg =>
      apply Dispatched.confirming S draw now (by rw [ht]; rfl) (FirstOnly.showMessage _ p env)
      rintro _ ⟨late, rfl⟩
      refine ⟨by simp, rfl, ?_, fun _ => by simp [hands]⟩
      rintro q e late' h
      cases h
      rfl
  | edit =>
      apply Dispatched.confirming S draw now (by rw [ht]; rfl) (FirstOnly.once _ p env _)
      rintro _ rfl
      exact .of_eq rfl fun _ => by simp [hands]
  | file =>
      apply Dispatched.confirming S draw now (by rw [ht]; rfl) (FirstOnly.once _ p env _)
      rintro _ rfl
      exact .of_eq rfl fun _ => by simp [hands]
  | reaction => exact .touching now (by rw [ht]; rfl) (by rw [ht]; rfl) rfl
  | knock => exact .touching now (by rw [ht]; rfl) (by rw [ht]; rfl) rfl
  | ack ref =>
      obtain ⟨hseq, hseen⟩ := perform_same S (c.touch p now) ((c.touch p now).out.ack ref now)
      have hholds : ∀ P, c.Holds P → ((c.touch p now).perform S ((c.touch p now).out.ack ref now)).1.Holds P := by
        intro P hP
        have htouch : (c.touch p now).Holds P := { hP with }
        exact htouch.perform S (htouch.out.ack ref now)
      exact Dispatched.idle (c := c) (by rw [ht]; rfl) hseq hseen hholds (perform_idle S _ _)
  | presence state =>
      cases state with
      | leave => exact .leave c p ht
      | active | away =>
          exact .idle (by rw [ht]; rfl) rfl rfl (fun _ h => { h with }) fun _ h => nomatch h
  | typing => exact .calling (.touch c p now) rfl (by rw [ht]; rfl) rfl
  | rtc | groupSkd | groupSkdReq => exact .calling (.refl c) rfl (by rw [ht]; rfl) rfl
  | unknown => exact .idle (by rw [ht]; rfl) rfl rfl (fun _ h => h) fun _ h => nomatch h

/-! ## Any turn -/

/-- What the turn of an action does to its room, and calls. -/
structure TurnSpec (c : Chat β) (a : Act β) (r : Chat β × List (Call β)) : Prop where
  builds : Builds c r
  ids : ∀ e ∈ built r.2, a.newId = some e.id
  seen : ∀ log, c.Seen log → r.1.Seen (log ++ r.2)
  opened : ∀ q f, .opened q f ∈ r.2 → ∃ accepts draw, a = .arrive f q accepts draw
  shown : ∀ q e late, .onMessage q e late ∈ r.2 →
    ∃ q' f, .opened q' f ∈ r.2 ∧ f.env = e ∧ (q', e.seq) ∉ c.seenSeq ∧ e.t.deduped = true
  once : ∀ id, r.2.countP (shows id) ≤ 1
  acks : ∀ e ∈ built r.2, ∀ ref, e.t = .ack ref →
    ∃ q f, .opened q f ∈ r.2 ∧ f.env.id = ref ∧ f.env.t.confirmed = true
  handed : ∀ q f, .opened q f ∈ r.2 → f.env.t.confirmed = true → (q, f.env.seq) ∉ c.seenSeq →
    ∃ call ∈ r.2, hands f.env.id call = true

theorem countP_shows_zero {calls : List (Call β)} (h : ∀ q e late, .onMessage q e late ∉ calls) (id : MsgId) :
    calls.countP (shows id) = 0 := by
  apply List.countP_eq_zero.mpr
  intro call hcall
  cases call with
  | onMessage q e late => exact absurd hcall (h q e late)
  | _ => exact Bool.noConfusion

theorem Keeps.turnSpec {c : Chat β} {r : Chat β × List (Call β)} (h : Keeps c r) (a : Act β) : TurnSpec c a r := by
  have hnone := h.built_nil
  have hopened : ∀ q f, .opened q f ∉ r.2 := by
    intro q f hmem
    obtain hidle | ⟨p, hp⟩ := h.calls _ hmem
    · cases hidle
    · cases hp
  have hshown : ∀ q e late, .onMessage q e late ∉ r.2 := by
    intro q e late hmem
    obtain hidle | ⟨p, hp⟩ := h.calls _ hmem
    · cases hidle
    · cases hp
  exact {
    builds := h.builds
    ids := by simp [hnone]
    seen := h.seen
    opened := fun q f hmem => absurd hmem (hopened q f)
    shown := fun q e late hmem => absurd hmem (hshown q e late)
    once := fun id => by simp [countP_shows_zero hshown id]
    acks := by simp [hnone]
    handed := fun q f hmem => absurd hmem (hopened q f) }

/-- A turn that builds an envelope to send. -/
theorem Builds.turnSpec {c : Chat β} {r : Chat β × List (Call β)} (h : Builds c r) {a : Act β} {t : Kind} {id : MsgId}
    {rest : β} {calls : List (Call β)} (hcalls : r.2 = .makes ⟨t, id, c.seq, rest⟩ :: calls)
    (hidle : ∀ call ∈ calls, call.idle = true) (hseen : r.1.seenSeq = c.seenSeq) (hid : a.newId = some id)
    (ht : ∀ ref, t ≠ .ack ref) : TurnSpec c a r := by
  have hmem : ∀ call ∈ r.2, (∃ e, call = .makes e) ∨ call.idle = true := by
    intro call hcall
    rw [hcalls] at hcall
    rcases List.mem_cons.mp hcall with rfl | hcall
    · exact .inl ⟨_, rfl⟩
    · exact .inr (hidle call hcall)
  have hopened : ∀ q f, .opened q f ∉ r.2 := by
    intro q f hcall
    obtain ⟨e, he⟩ | he := hmem _ hcall <;> cases he
  have hshown : ∀ q e late, .onMessage q e late ∉ r.2 := by
    intro q e late hcall
    obtain ⟨e, he⟩ | he := hmem _ hcall <;> cases he
  have hbuilt : built r.2 = [⟨t, id, c.seq, rest⟩] := by
    have hnil : built calls = [] := built_nil_of fun e he => Bool.noConfusion (hidle _ he)
    rw [hcalls]
    exact congrArg (⟨t, id, c.seq, rest⟩ :: ·) hnil
  exact {
    builds := h
    ids := by simp [hbuilt, hid]
    seen := fun log hlog => hlog.still hseen fun call hcall => by
      obtain ⟨e, rfl⟩ | hi := hmem call hcall
      · simp
      · exact not_opened_of_idle hi
    opened := fun q f hcall => absurd hcall (hopened q f)
    shown := fun q e late hcall => absurd hcall (hshown q e late)
    once := fun id => by simp [countP_shows_zero hshown id]
    acks := by simp [hbuilt, ht]
    handed := fun q f hcall => absurd hcall (hopened q f) }

/-- What opens is what was sealed. -/
theorem openSealed_eq {c : Chat β} {f : Frame β} {p : PeerId} {accepts : Bool} {now : Time} {env : Envelope β}
    (h : c.openSealed f p accepts now = some env) : env = f.env := by
  have hdecrypt : ∀ {s : SessionId} {env : Envelope β}, decrypt s f accepts = some env → env = f.env := by
    intro s env hs
    rw [decrypt] at hs
    split at hs
    · exact (Option.some.inj hs).symm
    · cases hs
  rw [openSealed] at h
  cases hs : c.sessions.get p with
  | none => simp [hs] at h
  | some s =>
      simp only [hs] at h
      cases hd : decrypt s f accepts with
      | some env' =>
          simp only [hd, Option.some.injEq] at h
          exact h ▸ hdecrypt hd
      | none =>
          simp only [hd] at h
          cases hp : c.previous.get p with
          | none => simp [hp] at h
          | some prev =>
              simp only [hp] at h
              split at h
              · cases h
              · exact hdecrypt h

theorem turnSpec_arrive (S : Settings) (c : Chat β) (f : Frame β) (p : PeerId) (accepts : Bool) (draw : AckDraw β)
    (now : Time) (direct : Bool) :
    TurnSpec c (.arrive f p accepts draw) (c.processSealed S f p accepts draw now direct) := by
  rw [processSealed]
  cases hopen : c.openSealed f p accepts now with
  | none => exact (Keeps.refl c).turnSpec _
  | some env =>
      dsimp only
      split
      · exact (Keeps.refl c).turnSpec _
      · obtain rfl := openSealed_eq hopen
        have D := dispatched S c p f.env draw now direct
        have hmem : ∀ {call : Call β}, (∀ g, call ≠ .opened p g) →
            call ∈ Call.opened p f :: (c.dispatch S p f.env draw now direct).2 →
            call ∈ (c.dispatch S p f.env draw now direct).2 :=
          fun hne h => (List.mem_cons.mp h).resolve_left (hne f)
        have hfirst : ∀ q g, Call.opened q g ∈ Call.opened p f :: (c.dispatch S p f.env draw now direct).2 →
            q = p ∧ g = f := by
          intro q g h
          obtain h | h := List.mem_cons.mp h
          · cases h
            exact ⟨rfl, rfl⟩
          · exact absurd h (D.unopened q g)
        exact {
          builds := ⟨D.builds.few, D.builds.numbered, D.builds.seq, D.builds.holds⟩
          ids := fun e he => congrArg some (D.acks e he).2.2.symm
          seen := fun log hlog => D.seen log f rfl hlog
          opened := fun q g h => by
            obtain ⟨rfl, rfl⟩ := hfirst q g h
            exact ⟨accepts, draw, rfl⟩
          shown := fun q e late h => by
            obtain ⟨rfl, hnew, hded⟩ := D.shown q e late (hmem (by simp) h)
            exact ⟨p, f, List.mem_cons_self .., rfl, hnew, hded⟩
          once := D.once
          acks := fun e he ref href => by
            obtain ⟨ht, hconf, -⟩ := D.acks e he
            rw [ht] at href
            exact ⟨p, f, List.mem_cons_self .., Kind.ack.inj href, hconf⟩
          handed := fun q g h hconf hnew => by
            obtain ⟨rfl, rfl⟩ := hfirst q g h
            obtain ⟨call, hcall, hh⟩ := D.handed hconf hnew
            exact ⟨call, List.mem_cons_of_mem _ hcall, hh⟩ }

theorem turnSpec (S : Settings) (c : Chat β) (now : Time) (direct : Bool) {a : Act β} (ha : a.Formed) :
    TurnSpec c a (c.turn S now direct a) := by
  cases a with
  | sendTracked t rest id =>
      apply (Builds.sendTracked S c t rest id now direct).turnSpec rfl (perform_idle S _ _) (perform_same S _ _).2 rfl
      rintro ref rfl
      cases ha
  | sendPlain t rest id =>
      apply (Builds.sendPlain S c t rest id).turnSpec rfl (fun _ h => nomatch h) (emitContent_same S _ _).2.1 rfl
      rintro ref rfl
      cases ha
  | sendGroupSkd rest id recent =>
      apply (Builds.sendGroupSkd S c rest id recent).turnSpec rfl (fun _ h => nomatch h) _ rfl fun _ => Kind.noConfusion
      rw [sendGroupSkd]
      dsimp only
      split <;> exact (emitContent_same S _ _).2.1
  | sendSignal rest id =>
      apply (Builds.sendSignal c rest id).turnSpec rfl (fun _ h => nomatch h) _ rfl fun _ => Kind.noConfusion
      rw [sendSignal]
      dsimp only [make]
      split <;> rfl
  | resend id => exact (Keeps.perform S fun _ h => h.resend id).turnSpec _
  | flushPending => exact (Keeps.perform S fun _ h => h.flushPending).turnSpec _
  | fire timer => exact (Keeps.perform S fun _ h => h.fire timer).turnSpec _
  | repeatSkd n => exact (Keeps.repeatSkd S c n).turnSpec _
  | arrive f p accepts draw => exact turnSpec_arrive S c f p accepts draw now direct
  | install p s => exact (Keeps.install S c p s now direct).turnSpec _
  | announced p => exact (Keeps.touch c p now).turnSpec _
  | vanish p =>
      have hkeeps : Keeps c (({ c with lastSeen := c.lastSeen.delete p } : Chat β), []) :=
        .of_still rfl rfl (fun _ h => { h with }) fun _ h => nomatch h
      exact hkeeps.turnSpec _
  | sweep => exact (Keeps.sweep S c now).turnSpec _
  | sealCopy env s => exact (Keeps.refl c).turnSpec _
  | reopen => exact (Keeps.refl c).turnSpec _

end Chat

end EncedoChat.Room
