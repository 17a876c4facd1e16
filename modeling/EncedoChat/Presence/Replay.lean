import Mathlib.Data.Rat.Encodable
import EncedoChat.Lib.Run
import EncedoChat.Lib.Calendar
import EncedoChat.SelfSession.Announce

/-!
# Announces heard

What a watch (`watchPresence` of `lib/presence.ts`) and a room (the handler of `lib/room.ts`) do with an announce: they
await `verifyAnnounce`, and act on it if its nonce is new to their cache. The cache forgets what no replay can use any
more, unless the replay is being verified meanwhile.
-/

namespace EncedoChat.Presence

open SelfSession (Mac macMessage asNum verifyAnnounce buildAnnounce REPLAY_WINDOW_MS NonceCache)

/-- A call of `verifyAnnounce`: the frame, the key and when it was made. -/
structure Heard (M : Mac) where
  data : Option Json
  macKey : M.Key
  time : Time

def Heard.result {M : Mac} (h : Heard M) : Except String (String × String) := verifyAnnounce M h.data h.macKey h.time

structure Ears (M : Mac) where
  seenNonces : NonceCache
  /-- the calls that are awaited -/
  verifying : List (Heard M)

/-- Who listens decides whose announces it acts on. -/
inductive Listener where
  | watch
  | room

def Listener.accepts (self : String) : Listener → String → Bool
  | .watch, peer => peer ≠ "" ∧ peer ≠ self
  | .room, peer => peer ≠ self

namespace Ears

variable {M : Mac}

def start : Ears M := ⟨.empty, []⟩

/-- The call of `verifyAnnounce`. -/
def listen (e : Ears M) (data : Option Json) (macKey : M.Key) (now : Time) : Ears M :=
  { e with verifying := e.verifying ++ [⟨data, macKey, now⟩] }

/-- The peer that an answer of `verifyAnnounce` is acted on for, and the nonce to keep. -/
def fresh (accepts : String → Bool) (e : Ears M) (h : Heard M) : Option (String × String) :=
  match h.result with
  | .error _ => none
  | .ok (peer, nonce) => if accepts peer ∧ e.seenNonces.has nonce = false then some (peer, nonce) else none

/-- The handler goes on after its await: the frame and the peer, if it acts on it. -/
def answer (accepts : String → Bool) (e : Ears M) (i : Nat) (now : Time) : Ears M × Option (Heard M × String) :=
  match e.verifying[i]? with
  | none => (e, none)
  | some h =>
    let e := { e with verifying := e.verifying.eraseIdx i }
    match e.fresh accepts h with
    | none => (e, none)
    | some (peer, nonce) => ({ e with seenNonces := NonceCache.add e.seenNonces nonce now }, some (h, peer))

end Ears

/-- A listener over time, with the frames that it acted on. -/
structure Listening (M : Mac) where
  ears : Ears M
  clock : Time
  acted : List (Heard M)

namespace Listening

variable {M : Mac}

/-- A frame arrives, or the handler goes on with one; `pass` is time without either. -/
inductive Act (M : Mac) where
  | arrive (data : Option Json) (macKey : M.Key) (now : Time)
  | verified (i : Nat) (now : Time)
  | pass (now : Time)

def Act.now : Act M → Time
  | .arrive _ _ now | .verified _ now | .pass now => now

def start (clock : Time) : Listening M := ⟨.start, clock, []⟩

def act (accepts : String → Bool) (w : Listening M) : Act M → Listening M
  | .arrive data macKey now => { w with ears := w.ears.listen data macKey now, clock := now }
  | .verified i now =>
    let r := w.ears.answer accepts i now
    { ears := r.1, clock := now, acted := (r.2.map Prod.fst).toList ++ w.acted }
  | .pass now => { w with clock := now }

/-- The clock does not go back. -/
def Onward (w : Listening M) (a : Act M) : Prop := w.clock ≤ a.now

/-- When an announce is new to a full cache, none is being verified whose nonce was new over ten minutes ago. -/
def Prompt (accepts : String → Bool) (w : Listening M) : Act M → Prop
  | .verified i now =>
    ∀ h, w.ears.verifying[i]? = some h → (w.ears.fresh accepts h).isSome → 256 ≤ w.ears.seenNonces.size →
      ∀ g ∈ w.ears.verifying.eraseIdx i, ∀ peer nonce t, g.result = .ok (peer, nonce) →
        w.ears.seenNonces.get nonce = some t → now - t ≤ 2 * REPLAY_WINDOW_MS
  | _ => True

end Listening

/-! ## What a frame says -/

section
variable {M : Mac}

/-- The peer, the nonce and the timestamp of a frame. -/
def fields (data : Option Json) : Option (String × String × Rat) := do
  let m ← data
  let peer ← Json.asStr (m.field "peer")
  let nonce ← Json.asStr (m.field "nonce")
  let ts ← asNum (m.field "ts")
  return (peer, nonce, ts)

theorem verifyAnnounce_ok {data : Option Json} {macKey : M.Key} {now : Time} {peer nonce : String}
    (h : verifyAnnounce M data macKey now = .ok (peer, nonce)) :
    ∃ ts, fields data = some (peer, nonce, ts) ∧ |(now : Rat) - ts| ≤ REPLAY_WINDOW_MS := by
  unfold verifyAnnounce at h
  split at h
  · cases h
  · rename_i m
    split at h
    · split at h
      · rename_i peer' nonce' ts mac hpeer hnonce hts hmac
        split at h
        · cases h
        · rename_i hin
          split at h
          · cases h
            exact ⟨ts, by simp [fields, hpeer, hnonce, hts], not_lt.mp hin⟩
          · cases h
      · cases h
    · cases h

/-- The text that a frame's MAC is made for. -/
def Heard.text (h : Heard M) : Option String :=
  (fields h.data).map fun (peer, nonce, ts) => macMessage M 3 peer nonce ts

/-- What the cache and the window look at. -/
def Heard.stamp (h : Heard M) : Option (String × Rat) := (fields h.data).map Prod.snd

theorem Heard.result_ok {h : Heard M} {peer nonce : String} (hok : h.result = .ok (peer, nonce)) :
    ∃ ts, h.stamp = some (nonce, ts) ∧ |(h.time : Rat) - ts| ≤ REPLAY_WINDOW_MS := by
  obtain ⟨ts, hf, hin⟩ := verifyAnnounce_ok hok
  exact ⟨ts, by rw [stamp, hf]; rfl, hin⟩

end

/-! ## What the cache keeps -/

section
variable {c : NonceCache} {n n' : String} {now t : Time}

/-- The sweep takes only what is over ten minutes old. -/
theorem get_sweep_young (h : c.get n = some t) (hy : now - t ≤ 2 * REPLAY_WINDOW_MS) :
    (NonceCache.sweep c now).get n = some t := by
  rw [OrdMap.get_eq_some] at h ⊢
  rw [← List.takeWhile_append_dropWhile (p := fun e => 2 * REPLAY_WINDOW_MS < now - e.2) (l := c.entries),
    List.mem_append] at h
  obtain hold | hyoung := h
  · have hlt := List.mem_takeWhile_imp hold
    exact absurd (of_decide_eq_true hlt) (not_lt.mpr hy)
  · exact hyoung

theorem get_add_young (h : (OrdMap.set c n now).get n' = some t)
    (hy : (OrdMap.set c n now).size ≤ 256 ∨ now - t ≤ 2 * REPLAY_WINDOW_MS) :
    (NonceCache.add c n now).get n' = some t := by
  rw [NonceCache.add]
  split
  · exact h
  · exact get_sweep_young h (hy.resolve_left ‹_›)

theorem get_add_self (c : NonceCache) (n : String) (now : Time) : (NonceCache.add c n now).get n = some now :=
  get_add_young (OrdMap.get_set_self c n now) (.inr (by rw [sub_self]; decide))

theorem size_set_new (h : c.get n = none) : (OrdMap.set c n now).size = c.size + 1 := by
  have hentries : (OrdMap.set c n now).entries = c.entries ++ [(n, now)] :=
    OrdMap.insertEntry_new (OrdMap.get_eq_none.mp h)
  rw [OrdMap.size, hentries, List.length_append]
  rfl

end

/-! ## At most once -/

/-- An answer that is acted on, or one that is not. -/
theorem Ears.answer_cases {M : Mac} (accepts : String → Bool) (e : Ears M) (i : Nat) (now : Time) :
    e.answer accepts i now = ({ e with verifying := e.verifying.eraseIdx i }, none) ∨
      ∃ h peer nonce, e.verifying[i]? = some h ∧ e.fresh accepts h = some (peer, nonce) ∧
        h.result = .ok (peer, nonce) ∧ e.seenNonces.get nonce = none ∧
        e.answer accepts i now = (⟨NonceCache.add e.seenNonces nonce now, e.verifying.eraseIdx i⟩, some (h, peer)) := by
  unfold answer
  cases hi : e.verifying[i]? with
  | none => exact .inl (by rw [List.eraseIdx_of_length_le (List.getElem?_eq_none_iff.mp hi)])
  | some h =>
      simp only
      cases hf : ({ e with verifying := e.verifying.eraseIdx i } : Ears M).fresh accepts h with
      | none => exact .inl rfl
      | some r =>
          obtain ⟨peer, nonce⟩ := r
          have hfresh := hf
          unfold fresh at hf
          cases hr : h.result with
          | error e => rw [hr] at hf; cases hf
          | ok r =>
              rw [hr] at hf
              simp only [Option.ite_none_right_eq_some] at hf
              obtain ⟨⟨-, hnew⟩, heq⟩ := hf
              cases heq
              refine .inr ⟨h, _, _, rfl, hfresh, hr, ?_, rfl⟩
              simpa [OrdMap.has] using hnew

namespace Listening

variable {M : Mac} {accepts : String → Bool} {w w' : Listening M} {clock : Time}

/-- What has been acted on has its nonce kept, or its time is over. -/
structure Inv (w : Listening M) : Prop where
  called : ∀ h ∈ w.ears.verifying, h.time ≤ w.clock
  kept : ∀ h ∈ w.acted, ∀ nonce ts, h.stamp = some (nonce, ts) →
    (∃ t : Time, w.ears.seenNonces.get nonce = some t ∧ ts ≤ t + REPLAY_WINDOW_MS) ∨
      ts + REPLAY_WINDOW_MS < w.clock

theorem Inv.start (clock : Time) : Inv (start clock : Listening M) :=
  ⟨fun _ h => absurd h List.not_mem_nil, fun _ h => absurd h List.not_mem_nil⟩

theorem Inv.act {a : Act M} (hi : Inv w) (ha : w.Onward a) : Inv (w.act accepts a) := by
  have hcast : ∀ {x y : Time}, x ≤ y → (x : Rat) ≤ y := fun h => Int.cast_le.mpr h
  cases a with
  | arrive data macKey now =>
      refine ⟨fun h hh => ?_, fun h hh nonce ts hs => (hi.kept h hh nonce ts hs).imp id fun hlt => ?_⟩
      · rw [Listening.act, Ears.listen, List.mem_append, List.mem_singleton] at hh
        obtain hh | rfl := hh
        · exact (hi.called h hh).trans ha
        · exact le_rfl
      · exact hlt.trans_le (hcast ha)
  | verified i now =>
      have hle : ∀ h ∈ w.ears.verifying.eraseIdx i, h.time ≤ now :=
        fun h hh => (hi.called h (List.mem_of_mem_eraseIdx hh)).trans ha
      obtain heq | ⟨h, peer, nonce, hget, -, hres, hnew, heq⟩ := w.ears.answer_cases accepts i now
      · rw [Listening.act, heq]
        exact ⟨hle, fun h hh nonce ts hs => (hi.kept h hh nonce ts hs).imp id fun hlt => hlt.trans_le (hcast ha)⟩
      · rw [Listening.act, heq]
        refine ⟨hle, fun g hg n ts hs => ?_⟩
        obtain rfl | hg := List.mem_cons.mp hg
        · -- its time is within the window of the call, which was made by now
          obtain ⟨ts', hs', hin⟩ := g.result_ok hres
          obtain ⟨rfl, rfl⟩ := Prod.mk.inj (Option.some.inj (hs'.symm.trans hs))
          have hcalled : (g.time : Rat) ≤ now := hcast ((hi.called g (List.mem_of_getElem? hget)).trans ha)
          exact .inl ⟨now, get_add_self .., by linarith [neg_le_of_abs_le hin]⟩
        · obtain ⟨t, ht, hts⟩ | hover := hi.kept g hg n ts hs
          · have hne : n ≠ nonce := fun he => by rw [he, hnew] at ht; cases ht
            by_cases hy : now - t ≤ 2 * REPLAY_WINDOW_MS
            · exact .inl ⟨t, get_add_young (by rwa [OrdMap.get_set, if_neg hne]) (.inr hy), hts⟩
            · have hold : (2 * REPLAY_WINDOW_MS : Rat) < now - t := by exact_mod_cast not_le.mp hy
              exact .inr (by linarith)
          · exact .inr (hover.trans_le (hcast ha))
  | pass now =>
      exact ⟨fun h hh => (hi.called h hh).trans ha,
        fun h hh nonce ts hs => (hi.kept h hh nonce ts hs).imp id fun hlt => hlt.trans_le (hcast ha)⟩

/-- What is acted on differs, and a replay that is being verified is remembered. -/
structure Once (w : Listening M) : Prop where
  once : (w.acted.map Heard.stamp).Nodup
  held : ∀ h ∈ w.ears.verifying, ∀ peer nonce, h.result = .ok (peer, nonce) → h.stamp ∈ w.acted.map Heard.stamp →
    ∃ t, w.ears.seenNonces.get nonce = some t

theorem Once.start (clock : Time) : Once (Listening.start clock : Listening M) :=
  ⟨List.nodup_nil, fun _ h => absurd h List.not_mem_nil⟩

theorem Once.act {a : Act M} (hw : Once w) (hi : Inv w) (ha : w.Onward a) (hp : w.Prompt accepts a) :
    Once (w.act accepts a) := by
  cases a with
  | arrive data macKey now =>
      refine ⟨hw.once, fun h hh peer nonce hres hmem => ?_⟩
      rw [Listening.act, Ears.listen, List.mem_append, List.mem_singleton] at hh
      obtain hh | rfl := hh
      · exact hw.held h hh peer nonce hres hmem
      · -- the call accepts it: its time is not over, so the nonce is kept
        obtain ⟨ts, hs, hin⟩ := Heard.result_ok hres
        obtain ⟨g, hg, hgs⟩ := List.mem_map.mp hmem
        obtain ⟨t, ht, -⟩ | hover := hi.kept g hg nonce ts (hgs.trans hs)
        · exact ⟨t, ht⟩
        · have hnow : (w.clock : Rat) ≤ now := Int.cast_le.mpr ha
          exact absurd hover (not_lt.mpr (by linarith [le_of_abs_le hin]))
  | verified i now =>
      obtain heq | ⟨h, peer, nonce, hget, hfresh, hres, hnew, heq⟩ := w.ears.answer_cases accepts i now
      · rw [Listening.act, heq]
        exact ⟨hw.once, fun g hg => hw.held g (List.mem_of_mem_eraseIdx hg)⟩
      · rw [Listening.act, heq]
        have hout : h.stamp ∉ w.acted.map Heard.stamp := fun hmem => by
          obtain ⟨t, ht⟩ := hw.held h (List.mem_of_getElem? hget) peer nonce hres hmem
          rw [hnew] at ht
          cases ht
        refine ⟨List.nodup_cons.mpr ⟨hout, hw.once⟩, fun g hg p n hgres hmem => ?_⟩
        obtain heq' | hmem := List.mem_cons.mp hmem
        · obtain ⟨ts, hs, -⟩ := Heard.result_ok hres
          obtain ⟨ts', hs', -⟩ := Heard.result_ok hgres
          obtain ⟨rfl, -⟩ := Prod.mk.inj (Option.some.inj (hs'.symm.trans (heq'.trans hs)))
          exact ⟨now, get_add_self ..⟩
        · obtain ⟨t, ht⟩ := hw.held g (List.mem_of_mem_eraseIdx hg) p n hgres hmem
          have hne : n ≠ nonce := fun he => by rw [he, hnew] at ht; cases ht
          refine ⟨t, get_add_young (by rwa [OrdMap.get_set, if_neg hne]) ?_⟩
          rw [size_set_new hnew]
          by_cases hfull : 256 ≤ w.ears.seenNonces.size
          · exact .inr (hp h hget (by rw [hfresh]; rfl) hfull g hg p n t hgres ht)
          · exact .inl (by omega)
  | pass now => exact ⟨hw.once, hw.held⟩

end Listening

/-! ## The text of an announce -/

/-- How numbers are written: each in its own way, and without the bar between the parts. -/
structure PlainNumbers (M : Mac) : Prop where
  inj : ∀ a b, M.numText a = M.numText b → a = b
  bar : ∀ a, '|' ∉ (M.numText a).toList

/-- Two texts are cut at their first bars. -/
theorem append_bar_inj {a b x y : List Char} (ha : '|' ∉ a) (hb : '|' ∉ b) (h : a ++ '|' :: x = b ++ '|' :: y) :
    a = b ∧ x = y := by
  induction a generalizing b with
  | nil =>
      cases b with
      | nil => exact ⟨rfl, List.tail_eq_of_cons_eq h⟩
      | cons c b => exact absurd (List.head_eq_of_cons_eq h ▸ List.mem_cons_self) hb
  | cons c a ih =>
      cases b with
      | nil => exact absurd (List.head_eq_of_cons_eq h ▸ List.mem_cons_self) ha
      | cons d b =>
          obtain ⟨rfl, htail⟩ := List.cons.inj h
          obtain ⟨rfl, hx⟩ := ih (fun hm => ha (List.mem_cons_of_mem _ hm)) (fun hm => hb (List.mem_cons_of_mem _ hm)) htail
          exact ⟨rfl, hx⟩

theorem macMessage_inj {M : Mac} (hM : PlainNumbers M) {peer peer' nonce nonce' : String} {ts ts' : Rat}
    (hp : '|' ∉ peer.toList) (hn : '|' ∉ nonce.toList)
    (h : macMessage M 3 peer' nonce' ts' = macMessage M 3 peer nonce ts) : nonce' = nonce ∧ ts' = ts := by
  have hlist : peer'.toList ++ '|' :: (nonce'.toList ++ '|' :: (M.numText ts').toList) =
      peer.toList ++ '|' :: (nonce.toList ++ '|' :: (M.numText ts).toList) := by
    have happ := congrArg String.toList h
    simpa [macMessage, String.toList_append] using happ
  have hcount := congrArg (List.count '|') hlist
  simp only [List.count_append, List.count_cons_self, List.count_eq_zero_of_not_mem hp,
    List.count_eq_zero_of_not_mem hn, List.count_eq_zero_of_not_mem (hM.bar _)] at hcount
  have hp' : '|' ∉ peer'.toList := List.count_eq_zero.mp (by omega)
  have hn' : '|' ∉ nonce'.toList := List.count_eq_zero.mp (by omega)
  obtain ⟨-, hrest⟩ := append_bar_inj hp' hp hlist
  obtain ⟨hnonce, hts⟩ := append_bar_inj hn' hn hrest
  exact ⟨String.toList_inj.mp hnonce, hM.inj _ _ (String.toList_inj.mp hts)⟩

namespace Listening

variable {M : Mac} {accepts : String → Bool} {w : Listening M} {clock : Time}

theorem Inv.reach (h : Reach (Listening.act accepts) Onward (Listening.start clock) w) : Inv w :=
  h.invariant (.start clock) fun _ _ hi ha => hi.act ha

theorem Once.reach
    (h : Reach (Listening.act accepts) (fun w a => w.Onward a ∧ w.Prompt accepts a) (Listening.start clock) w) :
    Once w :=
  h.invariant' (.start clock) fun _ _ hr hw ha =>
    hw.act (Inv.reach (hr.mono fun _ _ hok => hok.1)) ha.1 ha.2

/-- A nonce that is forgotten is one whose replay would not be accepted any more. -/
theorem Inv.forgotten (hi : Inv w) {g : Heard M} (hg : g ∈ w.acted) {nonce : String} {ts : Rat}
    (hs : g.stamp = some (nonce, ts)) (hgone : w.ears.seenNonces.has nonce = false) {h : Heard M}
    (hsame : h.stamp = some (nonce, ts)) (hlate : w.clock ≤ h.time) (r : String × String) : h.result ≠ .ok r := by
  intro hok
  have hok : h.result = .ok (r.1, r.2) := hok
  obtain ⟨ts', hs', hin⟩ := Heard.result_ok hok
  obtain ⟨-, rfl⟩ := Prod.mk.inj (Option.some.inj (hs'.symm.trans hsame))
  have hnow : (w.clock : Rat) ≤ h.time := Int.cast_le.mpr hlate
  obtain ⟨t, ht, -⟩ | hover := hi.kept g hg nonce ts' hs
  · rw [OrdMap.has_of_get ht] at hgone
    cases hgone
  · exact absurd hover (not_lt.mpr (by linarith [le_of_abs_le hin]))

theorem Once.countP_le_one (hw : Once w) (hM : PlainNumbers M) {peer nonce : String} (ts : Rat)
    (hp : '|' ∉ peer.toList) (hn : '|' ∉ nonce.toList) :
    w.acted.countP (fun h => h.text = some (macMessage M 3 peer nonce ts)) ≤ 1 := by
  have hle : w.acted.countP (fun h => h.text = some (macMessage M 3 peer nonce ts)) ≤
      w.acted.countP (fun h => h.stamp = some (nonce, ts)) := by
    refine List.countP_mono_left fun h _ htext => ?_
    obtain ⟨⟨peer', nonce', ts'⟩, hf, heq⟩ := Option.map_eq_some_iff.mp (of_decide_eq_true htext)
    obtain ⟨rfl, rfl⟩ := macMessage_inj hM hp hn heq
    exact decide_eq_true (by rw [Heard.stamp, hf]; rfl)
  have hcount : w.acted.countP (fun h => h.stamp = some (nonce, ts)) =
      (w.acted.map Heard.stamp).count (some (nonce, ts)) := by
    rw [List.count, List.countP_map]
    exact List.countP_congr fun h _ => by simp
  exact hle.trans (hcount ▸ List.nodup_iff_count_le_one.mp hw.once _)

/-- In a run where no replay is still being verified when its nonce is forgotten, an announce is acted on at most once.
In every run a nonce is forgotten only when no replay of it is accepted any more. -/
theorem announce_once (hM : PlainNumbers M) (self : String) (l : Listener) (clock : Time) :
    (∀ w : Listening M,
      Reach (act (l.accepts self)) (fun w a => w.Onward a ∧ w.Prompt (l.accepts self) a) (start clock) w →
      ∀ peer nonce : String, ∀ ts : Rat, '|' ∉ peer.toList → '|' ∉ nonce.toList →
        w.acted.countP (fun h => h.text = some (macMessage M 3 peer nonce ts)) ≤ 1) ∧
      ∀ w : Listening M, Reach (act (l.accepts self)) Onward (start clock) w → ∀ g ∈ w.acted, ∀ nonce ts,
        g.stamp = some (nonce, ts) → w.ears.seenNonces.has nonce = false → ∀ h : Heard M,
          h.stamp = some (nonce, ts) → w.clock ≤ h.time → ∀ r, h.result ≠ .ok r := by
  constructor
  · intro w hr peer nonce ts hp hn
    exact (Once.reach hr).countP_le_one hM ts hp hn
  · intro w hr g hg nonce ts hs hgone h hsame hlate r
    exact (Inv.reach hr).forgotten hg hs hgone hsame hlate r

/-- Numbers in strokes. -/
def strokes : Mac where
  Key := Unit
  sign _ msg := msg
  verify _ mac msg := mac == msg
  numText q := String.ofList (List.replicate (Encodable.encode q) '1')
  verify_sign _ _ := beq_self_eq_true _

theorem plain_strokes : PlainNumbers strokes where
  inj a b h := by
    have hlist := String.ofList_inj.mp h
    exact Encodable.encode_injective (by simpa using congrArg List.length hlist)
  bar a hm := by
    rw [strokes, String.toList_ofList] at hm
    exact absurd (List.eq_of_mem_replicate hm) (by decide)

/-- A listener that hears the same announce twice. -/
def sampleRun (M : Mac) (macKey : M.Key) : List (Act M) :=
  [.arrive (some (buildAnnounce M "peer" macKey "n" 0)) macKey 0,
    .arrive (some (buildAnnounce M "peer" macKey "n" 0)) macKey 1, .verified 0 2, .verified 0 3]

theorem announce_once_sample : ((sampleRun strokes ()).foldl (act (Listener.watch.accepts "self")) (start 0)).acted.countP
    (fun h => h.text = some (macMessage strokes 3 "peer" "n" 0)) ≤ 1 := by
  refine (announce_once plain_strokes "self" .watch 0).1 _ (Admits.reach .start ?_) "peer" "n" 0 (by decide) (by decide)
  refine ⟨⟨le_refl (0 : Int), trivial⟩, ⟨(by decide : (0 : Int) ≤ 1), trivial⟩, ⟨(by decide : (1 : Int) ≤ 2), ?_⟩,
    ⟨(by decide : (2 : Int) ≤ 3), ?_⟩, trivial⟩
  · intro h _ _ hfull
    exact absurd hfull (by decide)
  · intro h _ _ hfull
    exact absurd hfull (by decide +kernel)

/-! ### A replay that outlasts its nonce -/

section
variable {peer nonce : String} {macKey : M.Key} {ts now : Time}

theorem fresh_built (e : Ears M) (hacc : accepts peer = true) (hin : |now - ts| ≤ REPLAY_WINDOW_MS)
    (hnew : e.seenNonces.get nonce = none) :
    e.fresh accepts ⟨some (buildAnnounce M peer macKey nonce ts), macKey, now⟩ = some (peer, nonce) := by
  rw [Ears.fresh, Heard.result, SelfSession.verifyAnnounce_build M hin]
  exact if_pos ⟨hacc, by rw [OrdMap.has, hnew]; rfl⟩

theorem answer_fresh {e : Ears M} {i : Nat} {h : Heard M} (hget : e.verifying[i]? = some h)
    (hfresh : e.fresh accepts h = some (peer, nonce)) (now : Time) : e.answer accepts i now =
      (⟨NonceCache.add e.seenNonces nonce now, e.verifying.eraseIdx i⟩, some (h, peer)) := by
  obtain heq | ⟨h', p, n, hget', hf', -, -, heq⟩ := e.answer_cases accepts i now
  · unfold Ears.answer at heq
    have hf : ({ e with verifying := e.verifying.eraseIdx i } : Ears M).fresh accepts h = some (peer, nonce) := hfresh
    simp only [hget, hf] at heq
    cases congrArg Prod.snd heq
  · obtain rfl := Option.some.inj (hget.symm.trans hget')
    obtain ⟨rfl, rfl⟩ := Prod.mk.inj (Option.some.inj (hfresh.symm.trans hf'))
    exact heq

end

/-- A new announce comes and is acted on at once. -/
theorem act_fresh (hpend : w.ears.verifying = []) (hacc : accepts peer = true) (hin : |now - ts| ≤ REPLAY_WINDOW_MS)
    (hnew : w.ears.seenNonces.get nonce = none) :
    [Act.arrive (some (buildAnnounce M peer macKey nonce ts)) macKey now, .verified 0 now].foldl (act accepts) w =
      ⟨⟨NonceCache.add w.ears.seenNonces nonce now, []⟩, now,
        ⟨some (buildAnnounce M peer macKey nonce ts), macKey, now⟩ :: w.acted⟩ := by
  have hlisten : w.ears.listen (some (buildAnnounce M peer macKey nonce ts)) macKey now =
      ⟨w.ears.seenNonces, [⟨some (buildAnnounce M peer macKey nonce ts), macKey, now⟩]⟩ := by
    rw [Ears.listen, hpend]
    rfl
  simp only [List.foldl_cons, List.foldl_nil, act, hlisten]
  rw [answer_fresh (e := ⟨_, [_]⟩) rfl (fresh_built ⟨_, [_]⟩ hacc hin hnew)]
  rfl

/-- Sixteen bytes in base64. -/
def sampleNonce (k : Nat) : String := String.ofList (Calendar.decimal 21 k ++ ['A', '=', '='])

theorem sampleNonce_inj {j k : Nat} (hj : j < 1000) (hk : k < 1000) (h : sampleNonce j = sampleNonce k) : j = k := by
  have hlist := List.append_cancel_right (String.ofList_inj.mp h)
  have hread := congrArg Calendar.readDecimal hlist
  rw [Calendar.readDecimal_decimal (hj.trans (by norm_num)), Calendar.readDecimal_decimal (hk.trans (by norm_num))]
    at hread
  exact Option.some.inj hread

/-- Announces of a peer whose clock is five minutes ahead, each heard at once. -/
def freshRun (M : Mac) (macKey : M.Key) : Nat → List (Act M)
  | 0 => []
  | k + 1 => freshRun M macKey k ++
      [.arrive (some (buildAnnounce M "peer" macKey (sampleNonce k) 300000)) macKey 0, .verified 0 0]

/-- The cache after them. -/
structure Filled (k : Nat) (w : Listening M) : Prop where
  entries : w.ears.seenNonces.entries = (List.range k).map fun j => (sampleNonce j, 0)
  verifying : w.ears.verifying = []
  clock : w.clock = 0

theorem filled (hacc : accepts "peer" = true) (macKey : M.Key) {k : Nat} (hk : k ≤ 256) :
    Filled k ((freshRun M macKey k).foldl (act accepts) (start 0)) ∧
      Reach (act accepts) Onward (start 0) ((freshRun M macKey k).foldl (act accepts) (start 0)) ∧
      (0 < k → (⟨some (buildAnnounce M "peer" macKey (sampleNonce 0) 300000), macKey, 0⟩ : Heard M) ∈
        ((freshRun M macKey k).foldl (act accepts) (start 0)).acted) := by
  induction k with
  | zero => exact ⟨⟨rfl, rfl, rfl⟩, .start, fun h => absurd h (by decide)⟩
  | succ k ih =>
      obtain ⟨hfill, hreach, hacted⟩ := ih (by omega)
      rw [freshRun, List.foldl_append]
      generalize (freshRun M macKey k).foldl (act accepts) (start 0) = w at hfill hreach hacted ⊢
      have hnew : w.ears.seenNonces.get (sampleNonce k) = none := by
        rw [OrdMap.get_eq_none, OrdMap.keys, hfill.entries, List.map_map, List.mem_map]
        rintro ⟨j, hj, heq⟩
        have hjk := List.mem_range.mp hj
        have hsame := sampleNonce_inj (by omega) (by omega) heq
        omega
      have hsize : (OrdMap.set w.ears.seenNonces (sampleNonce k) 0).size ≤ 256 := by
        rw [size_set_new hnew, OrdMap.size, hfill.entries, List.length_map, List.length_range]
        exact hk
      have hset : NonceCache.add w.ears.seenNonces (sampleNonce k) 0 = w.ears.seenNonces.set (sampleNonce k) 0 :=
        if_pos hsize
      have hadm : Admits (act accepts) Onward w
          [.arrive (some (buildAnnounce M "peer" macKey (sampleNonce k) 300000)) macKey 0, .verified 0 0] :=
        ⟨hfill.clock.le, le_rfl, trivial⟩
      have hrun := Admits.reach hreach hadm
      rw [act_fresh hfill.verifying hacc (by decide) hnew, hset] at hrun ⊢
      refine ⟨⟨?_, rfl, rfl⟩, hrun, fun _ => ?_⟩
      · rw [List.range_succ, List.map_append, ← hfill.entries]
        exact OrdMap.insertEntry_new (OrdMap.get_eq_none.mp hnew)
      · cases k with
        | zero => exact List.mem_cons_self
        | succ k => exact List.mem_cons_of_mem _ (hacted (Nat.succ_pos k))

/-- The first announce again, as late as it may come; while it is verified, one more is heard. -/
def lateRun (M : Mac) (macKey : M.Key) : List (Act M) :=
  [.arrive (some (buildAnnounce M "peer" macKey (sampleNonce 0) 300000)) macKey 600000,
    .arrive (some (buildAnnounce M "peer" macKey (sampleNonce 256) 600000)) macKey 600000,
    .verified 1 600001, .verified 0 600002]

/-- The sweep of the last takes all the others. -/
theorem Filled.swept {w : Listening M} (h : Filled 256 w) :
    (NonceCache.add w.ears.seenNonces (sampleNonce 256) 600001).get (sampleNonce 0) = none ∧
      w.ears.seenNonces.get (sampleNonce 256) = none := by
  have hnew : w.ears.seenNonces.get (sampleNonce 256) = none := by
    rw [OrdMap.get_eq_none, OrdMap.keys, h.entries, List.map_map, List.mem_map]
    rintro ⟨j, hj, heq⟩
    have hlt := List.mem_range.mp hj
    have hsame := sampleNonce_inj (by omega) (by omega) heq
    omega
  have hsize : ¬(OrdMap.set w.ears.seenNonces (sampleNonce 256) 600001).size ≤ 256 := by
    rw [size_set_new hnew, OrdMap.size, h.entries, List.length_map, List.length_range]
    decide
  have hentries : (OrdMap.set w.ears.seenNonces (sampleNonce 256) 600001).entries =
      (List.range 256).map (fun j => (sampleNonce j, 0)) ++ [(sampleNonce 256, 600001)] := by
    rw [← h.entries]
    exact OrdMap.insertEntry_new (OrdMap.get_eq_none.mp hnew)
  have hleft : (NonceCache.sweep (OrdMap.set w.ears.seenNonces (sampleNonce 256) 600001) 600001).entries =
      [(sampleNonce 256, 600001)] := by
    change List.dropWhile _ _ = _
    rw [hentries, List.dropWhile_append_of_pos]
    · rfl
    · intro e he
      obtain ⟨j, -, rfl⟩ := List.mem_map.mp he
      exact decide_eq_true (by decide : 2 * REPLAY_WINDOW_MS < 600001 - 0)
  refine ⟨?_, hnew⟩
  rw [NonceCache.add, if_neg hsize, OrdMap.get_eq_none, OrdMap.keys, hleft]
  intro hm
  have hsame := sampleNonce_inj (by omega) (by omega) (List.mem_singleton.mp hm)
  omega

theorem text_built {M : Mac} (peer nonce : String) (key : M.Key) (ts time : Time) :
    (⟨some (buildAnnounce M peer key nonce ts), key, time⟩ : Heard M).text = some (macMessage M 3 peer nonce ts) := by
  simp [Heard.text, fields, buildAnnounce, Json.field, Json.asStr, asNum, List.lookup_cons]

theorem Filled.late {w : Listening M} (h : Filled 256 w) (hacc : accepts "peer" = true) (macKey : M.Key) :
    ((lateRun M macKey).foldl (act accepts) w).acted =
      ⟨some (buildAnnounce M "peer" macKey (sampleNonce 0) 300000), macKey, 600000⟩ ::
        ⟨some (buildAnnounce M "peer" macKey (sampleNonce 256) 600000), macKey, 600000⟩ :: w.acted := by
  obtain ⟨hgone, hnew⟩ := h.swept
  simp only [lateRun, List.foldl_cons, List.foldl_nil, act, Ears.listen, h.verifying, List.nil_append, List.cons_append]
  rw [answer_fresh (e := ⟨_, [_, _]⟩) rfl (fresh_built ⟨_, [_, _]⟩ hacc (by decide) hnew)]
  simp only [List.eraseIdx_cons_succ, List.eraseIdx_cons_zero]
  rw [answer_fresh (e := ⟨NonceCache.add w.ears.seenNonces (sampleNonce 256) 600001, [_]⟩) rfl
    (fresh_built ⟨_, [_]⟩ hacc (by decide) hgone)]
  rfl

/-- The first of 256 announces is acted on again when it is being verified while its nonce is forgotten. -/
theorem late_acts (hacc : accepts "peer" = true) (macKey : M.Key) : ∃ w : Listening M,
    Reach (act accepts) Onward (start 0) w ∧
      1 < w.acted.countP (fun h => h.text = some (macMessage M 3 "peer" (sampleNonce 0) ((300000 : Time) : Rat))) := by
  obtain ⟨hfill, hreach, hacted⟩ := filled hacc macKey (le_refl 256)
  generalize (freshRun M macKey 256).foldl (act accepts) (start 0) = w at hfill hreach hacted
  have hadm : Admits (act accepts) Onward w (lateRun M macKey) :=
    ⟨hfill.clock.trans_le (by decide : (0 : Int) ≤ 600000), le_refl (600000 : Int),
      (by decide : (600000 : Int) ≤ 600001), (by decide : (600001 : Int) ≤ 600002), trivial⟩
  refine ⟨_, Admits.reach hreach hadm, ?_⟩
  have hfirst : 0 < w.acted.countP (fun h =>
      h.text = some (macMessage M 3 "peer" (sampleNonce 0) ((300000 : Time) : Rat))) :=
    List.countP_pos_iff.mpr ⟨_, hacted (by decide), decide_eq_true (text_built ..)⟩
  have hagain := text_built (M := M) "peer" (sampleNonce 0) macKey 300000 600000
  rw [hfill.late hacc macKey, List.countP_cons, List.countP_cons, if_pos (decide_eq_true hagain)]
  omega

theorem late_acts_twice : ¬∀ w : Listening strokes,
    Reach (act (Listener.watch.accepts "self")) Onward (start 0) w → ∀ peer nonce : String, ∀ ts : Rat,
      '|' ∉ peer.toList → '|' ∉ nonce.toList →
        w.acted.countP (fun h => h.text = some (macMessage strokes 3 peer nonce ts)) ≤ 1 := by
  intro hall
  have hacc : Listener.watch.accepts "self" "peer" = true := by decide
  obtain ⟨w, hreach, htwice⟩ := late_acts (M := strokes) hacc ()
  have honce := hall w hreach "peer" (sampleNonce 0) ((300000 : Time) : Rat) (by decide)
    (by rw [sampleNonce, String.toList_ofList]; decide)
  omega

end Listening

end EncedoChat.Presence
