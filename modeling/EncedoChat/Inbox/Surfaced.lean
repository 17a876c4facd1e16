import Mathlib.Data.List.Dedup
import Mathlib.Data.List.Perm.Basic
import Mathlib.Data.List.Perm.Subperm
import EncedoChat.Lib.Aead
import EncedoChat.Lib.Run
import EncedoChat.Lib.Window
import EncedoChat.Lib.X25519
import EncedoChat.Inbox.Knock
import EncedoChat.Presence.Rotation

/-!
# Knocks that surface

The message handler of `watchInbox` of `lib/inbox.ts`, up to its await and after it, with the frames of the watch's own
decoys. A frame goes by its first 32 bytes, which are not what decides how it opens.
-/

namespace EncedoChat.Inbox

open Presence (Time Date)
open Window (live)

def SEEN_MAX : Nat := 512
def MAX_PER_MIN : Nat := 20
def MAX_OPEN_PER_MIN : Nat := 60
def MINUTE : Time := 60000

/-- What a watch was made with. The key is the invite's own; where it could not be derived, its `dh` fails. -/
structure Ear where
  crypto : Crypto
  inbox : Bytes
  key : Dh
  maxPerMin : Nat
  maxOpenPerMin : Nat

/-- A call of `onKnock`, with the frame it is for. -/
structure Call where
  frame : Bytes
  knock : Knock
  dateUTC : Date
  time : Time

structure Handler where
  stopped : Bool
  /-- `topics`, dates with their topics -/
  topics : List (Date × String)
  /-- oldest first -/
  seen : List Bytes
  seenSet : List Bytes
  opened : List Time
  surfaced : List Time
  /-- the frames whose opening is awaited -/
  opening : List (Bytes × Date)
  /-- the frames of the inbox so far, the own decoys with them -/
  heard : List Bytes
  /-- when a frame went to be opened -/
  openings : List Time
  calls : List Call
  /-- the last reading of the clock -/
  now : Time

inductive Turn where
  /-- a pass of the watch -/
  | topics (ts : List (Date × String))
  /-- `publishDecoy`, once its frame is sealed -/
  | decoy (frame : Bytes)
  /-- a message -/
  | message (topic : String) (data : Bytes) (t₀ : Time)
  /-- an opening that was awaited -/
  | opened (i : Nat) (t : Time)
  | stop

/-- The first 32 bytes. -/
def ephOf (frame : Bytes) : Bytes := frame.take 32

namespace Handler

variable (E : Ear) (h : Handler)

def start : Handler := ⟨false, [], [], [], [], [], [], [], [], [], 0⟩

/-- The last of the dates whose topic it is. -/
def dateOf (topic : String) : Option Date := (h.topics.reverse.find? fun p => p.2 = topic).map Prod.fst

def remember (eph : Bytes) : Handler :=
  let seenSet := if eph ∈ h.seenSet then h.seenSet else h.seenSet ++ [eph]
  match h.seen ++ [eph] with
  | [] => h
  | old :: rest =>
    if SEEN_MAX < (old :: rest).length then { h with seen := rest, seenSet := seenSet.filter (· ≠ old) }
    else { h with seen := old :: rest, seenSet := seenSet }

def hear (frame : Bytes) : Handler := { h with heard := h.heard ++ [frame] }

/-- The open cap. -/
def admitOpen (frame : Bytes) (date : Date) (t₀ : Time) : Handler :=
  let opened := live MINUTE h.opened t₀
  if E.maxOpenPerMin ≤ opened.length then { h with opened := opened, now := t₀ }
  else
    { h with
      opened := opened ++ [t₀]
      openings := h.openings ++ [t₀]
      opening := h.opening ++ [(frame, date)]
      now := t₀ }

/-- Up to the await. -/
def message (topic : String) (frame : Bytes) (t₀ : Time) : Handler :=
  if h.stopped then h
  else
    match h.dateOf topic with
    | none => h
    | some date =>
      if frame.length < 32 then h
      else if ephOf frame ∈ h.seenSet then h.hear frame
      else ((h.hear frame).remember (ephOf frame)).admitOpen E frame date t₀

/-- The rate cap. -/
def admitKnock (frame : Bytes) (date : Date) (k : Knock) (t : Time) : Handler :=
  let surfaced := live MINUTE h.surfaced t
  if E.maxPerMin ≤ surfaced.length then { h with surfaced := surfaced, now := t }
  else { h with surfaced := surfaced ++ [t], calls := h.calls ++ [⟨frame, k, date, t⟩], now := t }

/-- After the await. -/
def settle (i : Nat) (t : Time) : Handler :=
  match h.opening[i]? with
  | none => h
  | some (frame, date) =>
    let h := { h with opening := h.opening.eraseIdx i }
    match E.crypto.openKnock E.inbox E.key frame with
    | none => h
    | some .decoy => h
    | some (.real ik name note) => h.admitKnock E frame date (.real ik name note) t

def act : Turn → Handler
  | .topics ts => { h with topics := ts }
  | .decoy frame => (h.hear frame).remember (ephOf frame)
  | .message topic frame t₀ => h.message E topic frame t₀
  | .opened i t => h.settle E i t
  | .stop => { h with stopped := true, topics := [] }

end Handler

/-! ## What a frame carries -/

namespace Ear

/-- What decides how a frame opens. -/
def box (E : Ear) (frame : Bytes) : Option ((Bytes × Bytes) × Bytes) :=
  (E.key.dh (ephOf frame)).map fun s => (E.crypto.frameKey s E.inbox, frame.drop EPH_LEN)

/-- The frame opens, if it does, as this sealed text. -/
def Carries (E : Ear) (b : Box Bytes Bytes) (frame : Bytes) : Prop := E.box frame = some ((b.key, b.nonce), b.ct)

instance (E : Ear) (b : Box Bytes Bytes) (frame : Bytes) : Decidable (E.Carries b frame) :=
  inferInstanceAs (Decidable (_ = _))

/-- AES-GCM opens what was sealed and nothing else. -/
def Ideal (E : Ear) (log : List (Box Bytes Bytes)) : Prop :=
  ∀ k n ct, E.crypto.decrypt k n ct = Box.openIn log k n [] ct

end Ear

/-- The keys other than `eph` of the frames of a list. -/
def others (eph : Bytes) (frames : List Bytes) : Nat := ((frames.map ephOf).filter (· ≠ eph)).dedup.length

namespace Handler

/-- The clock does not go back, and the key of an own decoy is new. -/
def Onward (h : Handler) : Turn → Prop
  | .message _ _ t => h.now ≤ t
  | .opened _ t => h.now ≤ t
  | .decoy frame => ephOf frame ∉ h.heard.map ephOf
  | _ => True

instance (h : Handler) : (e : Turn) → Decidable (h.Onward e)
  | .topics _ => isTrue trivial
  | .decoy _ => inferInstanceAs (Decidable (_ ∉ _))
  | .message _ _ _ => inferInstanceAs (Decidable (_ ≤ _))
  | .opened _ _ => inferInstanceAs (Decidable (_ ≤ _))
  | .stop => isTrue trivial

/-- Between two frames that carry one sealed text, there are fewer than 512 others. -/
def Near (E : Ear) (log : List (Box Bytes Bytes)) (h : Handler) : Turn → Prop
  | .message _ frame _ => ∀ b ∈ log, E.Carries b frame → ∀ pre g post, h.heard = pre ++ g :: post → E.Carries b g →
      others (ephOf frame) post < SEEN_MAX
  | _ => True

/-- Two frames that carry one sealed text have the same first 32 bytes. -/
def Unaltered (E : Ear) (log : List (Box Bytes Bytes)) (h : Handler) : Turn → Prop
  | .message _ frame _ => ∀ b ∈ log, E.Carries b frame → ∀ g ∈ h.heard, E.Carries b g → ephOf g = ephOf frame
  | _ => True

/-- Every knock that surfaced is a sealed one, and none surfaced twice. -/
structure Once (E : Ear) (log : List (Box Bytes Bytes)) (h : Handler) : Prop where
  genuine : ∀ c ∈ h.calls, ∃ b ∈ log, E.Carries b c.frame ∧ unpack b.pt = .ok (some c.knock)
  once : ∀ b ∈ log, h.calls.countP (fun c => E.Carries b c.frame) ≤ 1

/-- In any minute. -/
structure Capped (E : Ear) (h : Handler) : Prop where
  openings : ∀ a, Window.within MINUTE a h.openings ≤ E.maxOpenPerMin
  calls : ∀ a, Window.within MINUTE a (h.calls.map Call.time) ≤ E.maxPerMin

/-! ## What is remembered -/

variable {E : Ear} {log : List (Box Bytes Bytes)} {h : Handler} {e : Bytes} {frame : Bytes}

structure Remembers (h : Handler) : Prop where
  nodup : h.seen.Nodup
  same : ∀ e, e ∈ h.seenSet ↔ e ∈ h.seen
  room : h.seen.length ≤ SEEN_MAX
  heard : h.seen ⊆ h.heard.map ephOf

/-- The key of `g` is kept since it was heard, or over 512 others came after it. -/
def Tracked (h : Handler) (g : Bytes) : Prop :=
  ∃ pre post, h.heard = pre ++ g :: post ∧
    ((∃ older newer, h.seen = older ++ ephOf g :: newer ∧ newer ⊆ post.map ephOf) ∨ SEEN_MAX ≤ others (ephOf g) post)

theorem length_le_others {q frames : List Bytes} (hnd : q.Nodup) (hnot : e ∉ q) (hsub : q ⊆ frames.map ephOf) :
    q.length ≤ others e frames := by
  refine (List.subperm_of_subset hnd fun x hx => ?_).length_le
  rw [List.mem_dedup, List.mem_filter]
  exact ⟨hsub hx, decide_eq_true fun heq => hnot (heq ▸ hx)⟩

theorem others_append (frames more : List Bytes) : others e frames ≤ others e (frames ++ more) := by
  refine (List.subperm_of_subset (List.nodup_dedup _) fun x hx => ?_).length_le
  rw [List.mem_dedup] at hx ⊢
  rw [List.map_append, List.filter_append]
  exact List.mem_append_left _ hx

theorem remember_frame (h : Handler) (e : Bytes) : (h.remember e).heard = h.heard ∧ (h.remember e).calls = h.calls ∧
    (h.remember e).opening = h.opening ∧ (h.remember e).openings = h.openings ∧ (h.remember e).opened = h.opened ∧
    (h.remember e).surfaced = h.surfaced ∧ (h.remember e).now = h.now := by
  unfold remember
  dsimp only
  split
  · exact ⟨rfl, rfl, rfl, rfl, rfl, rfl, rfl⟩
  · split <;> exact ⟨rfl, rfl, rfl, rfl, rfl, rfl, rfl⟩

theorem remember_seen (h : Handler) (e : Bytes) :
    (h.remember e).seen = if h.seen.length < SEEN_MAX then h.seen ++ [e] else h.seen.tail ++ [e] := by
  cases hs : h.seen with
  | nil => simp [remember, hs, SEEN_MAX]
  | cons old rest =>
      simp only [remember, hs, List.cons_append, List.length_cons, List.length_append, List.length_nil, List.tail_cons]
      by_cases hlt : rest.length + 1 < SEEN_MAX
      · rw [if_neg (by omega), if_pos hlt]
      · rw [if_pos (by omega), if_neg hlt]

theorem mem_remember_seenSet (hr : h.Remembers) (he : e ∉ h.seen) (x : Bytes) :
    x ∈ (h.remember e).seenSet ↔ x ∈ (h.remember e).seen := by
  have hset : e ∉ h.seenSet := fun hin => he ((hr.same e).mp hin)
  have hsame := hr.same x
  cases hs : h.seen with
  | nil =>
      rw [hs] at hsame
      simp [remember, hs, SEEN_MAX, hset, hsame]
  | cons old rest =>
      have hnd := hr.nodup
      rw [hs] at hsame hnd he
      simp only [remember, hs, List.cons_append, List.length_cons, List.length_append, List.length_nil, hset, ↓reduceIte]
      by_cases hlt : SEEN_MAX < rest.length + (0 + 1) + 1
      · rw [if_pos hlt]
        rw [List.nodup_cons] at hnd
        simp only [List.mem_filter, List.mem_append, List.mem_singleton, hsame, List.mem_cons, decide_eq_true_eq,
          List.not_mem_nil, or_false]
        constructor
        · rintro ⟨(rfl | hx) | hx, hne⟩
          · exact absurd rfl hne
          · exact .inl hx
          · exact .inr hx
        · rintro (hx | rfl)
          · exact ⟨.inl (.inr hx), fun heq => hnd.1 (heq ▸ hx)⟩
          · exact ⟨.inr rfl, fun heq => he (heq ▸ List.mem_cons_self)⟩
      · rw [if_neg hlt]
        simp only [List.mem_append, List.mem_singleton, hsame, List.mem_cons]
        tauto

theorem Remembers.remember (hr : h.Remembers) (he : e ∉ h.seen) (hin : e ∈ h.heard.map ephOf) :
    (h.remember e).Remembers where
  nodup := by
    rw [remember_seen]
    split
    · exact List.nodup_append.mpr ⟨hr.nodup, List.nodup_singleton e, fun x hx y hy heq =>
        he (List.mem_singleton.mp hy ▸ heq ▸ hx)⟩
    · exact List.nodup_append.mpr ⟨hr.nodup.tail, List.nodup_singleton e, fun x hx y hy heq =>
        he (List.mem_singleton.mp hy ▸ heq ▸ List.mem_of_mem_tail hx)⟩
  same := mem_remember_seenSet hr he
  room := by
    have hroom := hr.room
    have hpos : 0 < SEEN_MAX := by decide
    rw [remember_seen]
    split
    · rw [List.length_append, List.length_singleton]
      omega
    · rw [List.length_append, List.length_singleton, List.length_tail]
      omega
  heard := by
    rw [remember_seen, (remember_frame h e).1]
    split
    · exact List.append_subset.mpr ⟨hr.heard, List.cons_subset.mpr ⟨hin, List.nil_subset _⟩⟩
    · exact List.append_subset.mpr ⟨fun x hx => hr.heard (List.mem_of_mem_tail hx), List.cons_subset.mpr ⟨hin, List.nil_subset _⟩⟩

theorem Remembers.hear (hr : h.Remembers) (frame : Bytes) : (h.hear frame).Remembers where
  nodup := hr.nodup
  same := hr.same
  room := hr.room
  heard x hx := by
    rw [Handler.hear, List.map_append]
    exact List.mem_append_left _ (hr.heard hx)

theorem Tracked.hear {g : Bytes} (ht : h.Tracked g) (frame : Bytes) : (h.hear frame).Tracked g := by
  obtain ⟨pre, post, hheard, hor⟩ := ht
  refine ⟨pre, post ++ [frame], by rw [Handler.hear, hheard, List.append_assoc, List.cons_append], ?_⟩
  rcases hor with ⟨older, newer, hseen, hsub⟩ | hmany
  · refine .inl ⟨older, newer, hseen, fun x hx => ?_⟩
    rw [List.map_append]
    exact List.mem_append_left _ (hsub hx)
  · exact .inr (hmany.trans (others_append ..))

/-- A new key pushes out the oldest of 512, which then has 512 others behind it. -/
theorem Tracked.remember {g : Bytes} (hr : h.Remembers) (ht : h.Tracked g) (hnew : ephOf frame ∉ h.seen) :
    ((h.hear frame).remember (ephOf frame)).Tracked g := by
  obtain ⟨pre, post, hheard, hor⟩ := ht
  have hheard' : ((h.hear frame).remember (ephOf frame)).heard = pre ++ g :: (post ++ [frame]) := by
    rw [(remember_frame _ _).1, Handler.hear, hheard, List.append_assoc, List.cons_append]
  refine ⟨pre, post ++ [frame], hheard', ?_⟩
  rcases hor with ⟨older, newer, hseen, hsub⟩ | hmany
  · have hsub' : newer ++ [ephOf frame] ⊆ (post ++ [frame]).map ephOf := by
      rw [List.map_append]
      exact List.append_subset.mpr ⟨fun x hx => List.mem_append_left _ (hsub hx), List.subset_append_right ..⟩
    rw [remember_seen]
    change (∃ older newer, (if h.seen.length < SEEN_MAX then h.seen ++ [ephOf frame] else h.seen.tail ++ [ephOf frame]) =
      older ++ ephOf g :: newer ∧ newer ⊆ _) ∨ _
    split
    · exact .inl ⟨older, newer ++ [ephOf frame], by rw [hseen, List.append_assoc, List.cons_append], hsub'⟩
    · cases older with
      | cons old older =>
          exact .inl ⟨older, newer ++ [ephOf frame], by rw [hseen]; simp, hsub'⟩
      | nil =>
          have hnd := hr.nodup
          rw [hseen] at hnd hnew
          rw [List.nil_append, List.nodup_cons] at hnd
          rw [List.nil_append, List.mem_cons, not_or] at hnew
          have hlen : h.seen.length = newer.length + 1 := by rw [hseen, List.nil_append, List.length_cons]
          have hq : (newer ++ [ephOf frame]).Nodup :=
            List.nodup_append.mpr ⟨hnd.2, List.nodup_singleton _, fun x hx y hy heq =>
              hnew.2 (List.mem_singleton.mp hy ▸ heq ▸ hx)⟩
          have hnot : ephOf g ∉ newer ++ [ephOf frame] := by
            rw [List.mem_append, List.mem_singleton, not_or]
            exact ⟨hnd.1, fun heq => hnew.1 heq.symm⟩
          have hle := length_le_others hq hnot hsub'
          rw [List.length_append, List.length_singleton] at hle
          exact .inr (by omega)
  · exact .inr (hmany.trans (others_append ..))

theorem tracked_self (h : Handler) (frame : Bytes) : ((h.hear frame).remember (ephOf frame)).Tracked frame := by
  refine ⟨h.heard, [], by rw [(remember_frame _ _).1]; rfl, .inl ?_⟩
  rw [remember_seen]
  split
  · exact ⟨_, [], rfl, List.nil_subset _⟩
  · exact ⟨_, [], rfl, List.nil_subset _⟩

theorem Tracked.congr {h' : Handler} {g : Bytes} (ht : h.Tracked g) (hheard : h'.heard = h.heard)
    (hseen : h'.seen = h.seen) : h'.Tracked g := by
  rwa [Tracked, hheard, hseen]

/-! ## A run -/

/-- What opened was sealed. -/
theorem openKnock_some (hideal : E.Ideal log) {k : Knock} (hopen : E.crypto.openKnock E.inbox E.key frame = some k) :
    ∃ b ∈ log, E.Carries b frame ∧ unpack b.pt = .ok (some k) := by
  unfold Crypto.openKnock at hopen
  split at hopen
  · cases hopen
  · cases hplain : E.crypto.openPlain E.inbox E.key frame with
    | none => simp [hplain] at hopen
    | some plain =>
        obtain ⟨u, hu⟩ := unpack_total plain
        simp only [hplain, hu] at hopen
        simp only [Crypto.openPlain, Option.bind_eq_bind, Option.bind_eq_some_iff] at hplain
        obtain ⟨s, hs, hdec⟩ := hplain
        rw [hideal] at hdec
        obtain ⟨b, hb, ⟨hkey, hnonce, -, hct⟩, rfl⟩ := Box.openIn_eq_some hdec
        exact ⟨b, hb, by rw [Ear.Carries, Ear.box, ephOf, ← EPH_LEN, hs, Option.map_some, hkey, hnonce, hct], hopen ▸ hu⟩

/-- The frames that went to be opened and may still surface, or did. -/
def pool (h : Handler) : List Bytes := h.calls.map Call.frame ++ h.opening.map Prod.fst

structure Inv (E : Ear) (log : List (Box Bytes Bytes)) (h : Handler) : Prop where
  remembers : h.Remembers
  tracked : ∀ g ∈ h.pool, h.Tracked g
  once : ∀ b ∈ log, h.pool.countP (fun g => E.Carries b g) ≤ 1
  genuine : ∀ c ∈ h.calls, ∃ b ∈ log, E.Carries b c.frame ∧ unpack b.pt = .ok (some c.knock)

theorem inv_start : start.Inv E log where
  remembers := ⟨List.nodup_nil, fun _ => Iff.rfl, Nat.zero_le _, List.nil_subset _⟩
  tracked := by simp [pool, start]
  once := by simp [pool, start]
  genuine := by simp [start]

theorem Inv.once' (hi : h.Inv E log) : h.Once E log where
  genuine := hi.genuine
  once b hb := by
    have hle := hi.once b hb
    rw [pool, List.countP_append, List.countP_map] at hle
    exact (Nat.le_add_right _ _).trans hle

/-- Only what is remembered, heard, opened and called counts. -/
theorem Inv.congr {h' : Handler} (hi : h.Inv E log) (hheard : h'.heard = h.heard) (hseen : h'.seen = h.seen)
    (hset : h'.seenSet = h.seenSet) (hcalls : h'.calls = h.calls) (hopening : h'.opening = h.opening) :
    h'.Inv E log where
  remembers := by
    obtain ⟨hnd, hsame, hroom, hsub⟩ := hi.remembers
    exact ⟨hseen ▸ hnd, hset ▸ hseen ▸ hsame, hseen ▸ hroom, hseen ▸ hheard ▸ hsub⟩
  tracked g hg := (hi.tracked g (by rwa [pool, hcalls, hopening] at hg)).congr hheard hseen
  once b hb := by
    rw [pool, hcalls, hopening]
    exact hi.once b hb
  genuine := by
    rw [hcalls]
    exact hi.genuine

theorem Inv.hear (hi : h.Inv E log) (frame : Bytes) : (h.hear frame).Inv E log where
  remembers := hi.remembers.hear frame
  tracked g hg := (hi.tracked g hg).hear frame
  once := hi.once
  genuine := hi.genuine

theorem Inv.remember (hi : h.Inv E log) (hnew : ephOf frame ∉ h.seen) :
    ((h.hear frame).remember (ephOf frame)).Inv E log := by
  obtain ⟨hheard, hcalls, hopening, -⟩ := remember_frame (h.hear frame) (ephOf frame)
  have hpool : ((h.hear frame).remember (ephOf frame)).pool = h.pool := by
    rw [pool, hcalls, hopening]
    rfl
  refine ⟨(hi.remembers.hear frame).remember hnew ?_, ?_, ?_, ?_⟩
  · rw [Handler.hear, List.map_append]
    exact List.mem_append_right _ List.mem_cons_self
  · rw [hpool]
    exact fun g hg => (hi.tracked g hg).remember hi.remembers hnew
  · rw [hpool]
    exact hi.once
  · rw [hcalls]
    exact hi.genuine

/-- A frame goes to be opened whose text no other of the pool carries. -/
theorem Inv.admitOpen (hi : h.Inv E log) (ht : h.Tracked frame) (date : Date) (t₀ : Time)
    (hnone : ∀ b ∈ log, E.Carries b frame → ∀ g ∈ h.pool, ¬E.Carries b g) :
    (h.admitOpen E frame date t₀).Inv E log := by
  unfold Handler.admitOpen
  dsimp only
  split
  · exact hi.congr rfl rfl rfl rfl rfl
  · have hpool : ({ h with
        opened := live MINUTE h.opened t₀ ++ [t₀]
        openings := h.openings ++ [t₀]
        opening := h.opening ++ [(frame, date)]
        now := t₀ } : Handler).pool = h.pool ++ [frame] := by
      simp [pool]
    refine ⟨⟨hi.remembers.nodup, hi.remembers.same, hi.remembers.room, hi.remembers.heard⟩, ?_, ?_, hi.genuine⟩
    · rw [hpool]
      intro g hg
      rcases List.mem_append.mp hg with hg | hg
      · exact (hi.tracked g hg).congr rfl rfl
      · rw [List.mem_singleton.mp hg]
        exact ht.congr rfl rfl
    · rw [hpool]
      intro b hb
      rw [List.countP_append, List.countP_singleton]
      split
      · rename_i hc
        rw [List.countP_eq_zero.mpr fun g hg => by simpa using hnone b hb (of_decide_eq_true hc) g hg]
      · exact hi.once b hb

theorem Inv.message (hi : h.Inv E log) (topic : String) (t₀ : Time)
    (hnear : h.Near E log (.message topic frame t₀)) (hsame : h.Unaltered E log (.message topic frame t₀)) :
    (h.message E topic frame t₀).Inv E log := by
  unfold Handler.message
  split
  · exact hi
  · split
    · exact hi
    · split
      · exact hi
      · split
        · exact hi.hear frame
        · rename_i hset
          have hnew : ephOf frame ∉ h.seen := fun hin => hset ((hi.remembers.same _).mpr hin)
          refine (hi.remember hnew).admitOpen (tracked_self h frame) _ _ fun b hb hc g hg hcg => ?_
          rw [pool, (remember_frame _ _).2.1, (remember_frame _ _).2.2.1] at hg
          -- `g` was heard before, with the key of `frame`: it is remembered, or 512 others came between
          obtain ⟨pre, post, hheard, hor⟩ := hi.tracked g hg
          have heq : ephOf g = ephOf frame := hsame b hb hc g (by rw [hheard]; simp) hcg
          rcases hor with ⟨older, newer, hseen, -⟩ | hmany
          · exact hnew (by rw [hseen, ← heq]; simp)
          · have hlt := hnear b hb hc pre g post hheard hcg
            rw [heq] at hmany
            omega

theorem Inv.settle (hideal : E.Ideal log) (hi : h.Inv E log) (i : Nat) (t : Time) : (h.settle E i t).Inv E log := by
  unfold Handler.settle
  split
  · exact hi
  · rename_i g date hget
    obtain ⟨hlt, hat⟩ := List.getElem?_eq_some_iff.mp hget
    have hperm : (h.opening.map Prod.fst).Perm (g :: (h.opening.eraseIdx i).map Prod.fst) := by
      have := (List.getElem_cons_eraseIdx_perm hlt).symm.map Prod.fst
      rwa [hat, List.map_cons] at this
    -- one frame less that is awaited
    have hless : ({ h with opening := h.opening.eraseIdx i } : Handler).Inv E log := by
      have hsub : ∀ x, x ∈ h.calls.map Call.frame ++ (h.opening.eraseIdx i).map Prod.fst → x ∈ h.pool := fun x hx =>
        (List.mem_append.mp hx).elim (fun hx => List.mem_append_left _ hx) fun hx =>
          List.mem_append_right _ (hperm.symm.mem_iff.mp (List.mem_cons_of_mem _ hx))
      refine ⟨⟨hi.remembers.nodup, hi.remembers.same, hi.remembers.room, hi.remembers.heard⟩,
        fun x hx => (hi.tracked x (hsub x hx)).congr rfl rfl, fun b hb => ?_, hi.genuine⟩
      refine le_trans ?_ (hi.once b hb)
      rw [pool, pool, List.countP_append, List.countP_append, hperm.countP_eq, List.countP_cons]
      exact Nat.add_le_add_left (Nat.le_add_right _ _) _
    dsimp only
    cases hopen : E.crypto.openKnock E.inbox E.key g with
    | none => exact hless
    | some k =>
        cases k with
        | decoy => exact hless
        | real ik name note =>
            unfold Handler.admitKnock
            dsimp only
            split
            · exact hless.congr rfl rfl rfl rfl rfl
            · -- the frame goes over from those awaited to those that surfaced
              have hpool : (h.calls.map Call.frame ++ g :: (h.opening.eraseIdx i).map Prod.fst).Perm h.pool :=
                hperm.symm.append_left _
              refine ⟨⟨hi.remembers.nodup, hi.remembers.same, hi.remembers.room, hi.remembers.heard⟩, ?_, ?_, ?_⟩
              · intro x hx
                refine (hi.tracked x (hpool.mem_iff.mp ?_)).congr rfl rfl
                simpa [pool] using hx
              · intro b hb
                have := hi.once b hb
                rw [← hpool.countP_eq] at this
                simpa [pool] using this
              · intro c hc
                rcases List.mem_append.mp hc with hc | hc
                · exact hi.genuine c hc
                · rw [List.mem_singleton.mp hc]
                  exact openKnock_some hideal hopen

theorem Inv.act (hideal : E.Ideal log) (hi : h.Inv E log) (e : Turn) (hon : h.Onward e) (hnear : h.Near E log e)
    (hsame : h.Unaltered E log e) : (h.act E e).Inv E log := by
  cases e with
  | topics ts => exact hi.congr rfl rfl rfl rfl rfl
  | decoy frame => exact hi.remember fun hin => hon (hi.remembers.heard hin)
  | message topic frame t₀ => exact hi.message topic t₀ hnear hsame
  | opened i t => exact hi.settle hideal i t
  | stop => exact hi.congr rfl rfl rfl rfl rfl

/-! ## The caps -/

structure Rated (E : Ear) (h : Handler) : Prop where
  openings : Window.Capped MINUTE E.maxOpenPerMin h.opened h.openings h.now
  calls : Window.Capped MINUTE E.maxPerMin h.surfaced (h.calls.map Call.time) h.now

theorem rated_start : start.Rated E := ⟨.start _, .start _⟩

theorem Rated.congr {h' : Handler} (hr : h.Rated E) (hopened : h'.opened = h.opened)
    (hopenings : h'.openings = h.openings) (hsurfaced : h'.surfaced = h.surfaced) (hcalls : h'.calls = h.calls)
    (hnow : h'.now = h.now) : h'.Rated E := by
  obtain ⟨ho, hc⟩ := hr
  constructor
  · rwa [hopened, hopenings, hnow]
  · rwa [hsurfaced, hcalls, hnow]

theorem Rated.hear_remember (hr : h.Rated E) (frame : Bytes) :
    ((h.hear frame).remember (ephOf frame)).Rated E := by
  obtain ⟨-, hcalls, -, hopenings, hopened, hsurfaced, hnow⟩ := remember_frame (h.hear frame) (ephOf frame)
  exact hr.congr hopened hopenings hsurfaced hcalls hnow

theorem Rated.admitOpen (hr : h.Rated E) (date : Date) {t₀ : Time} (ht : h.now ≤ t₀) :
    (h.admitOpen E frame date t₀).Rated E := by
  unfold Handler.admitOpen
  dsimp only
  split
  · exact ⟨hr.openings.drop ht, hr.calls.pass ht⟩
  · exact ⟨hr.openings.hit ht (by omega), hr.calls.pass ht⟩

theorem Rated.admitKnock (hr : h.Rated E) (date : Date) (k : Knock) {t : Time} (ht : h.now ≤ t) :
    (h.admitKnock E frame date k t).Rated E := by
  unfold Handler.admitKnock
  dsimp only
  split
  · exact ⟨hr.openings.pass ht, hr.calls.drop ht⟩
  · refine ⟨hr.openings.pass ht, ?_⟩
    rw [List.map_append]
    exact hr.calls.hit ht (by omega)

theorem Rated.act (hr : h.Rated E) (e : Turn) (hon : h.Onward e) : (h.act E e).Rated E := by
  cases e with
  | topics ts => exact hr.congr rfl rfl rfl rfl rfl
  | decoy frame => exact hr.hear_remember frame
  | message topic frame t₀ =>
      have hnow : ((h.hear frame).remember (ephOf frame)).now = h.now := (remember_frame _ _).2.2.2.2.2.2
      change (h.message E topic frame t₀).Rated E
      unfold Handler.message
      split
      · exact hr
      · split
        · exact hr
        · split
          · exact hr
          · split
            · exact hr.congr rfl rfl rfl rfl rfl
            · exact (hr.hear_remember frame).admitOpen _ (hnow ▸ hon)
  | opened i t =>
      change (h.settle E i t).Rated E
      unfold Handler.settle
      split
      · exact hr
      · dsimp only
        have hless : ({ h with opening := h.opening.eraseIdx i } : Handler).Rated E := hr.congr rfl rfl rfl rfl rfl
        split
        · exact hless
        · exact hless
        · exact hless.admitKnock _ _ hon
  | stop => exact hr.congr rfl rfl rfl rfl rfl

theorem Rated.capped (hr : h.Rated E) : h.Capped E := ⟨hr.openings.cap, hr.calls.cap⟩

end Handler

/-- **Both caps hold in any minute of every run. Every knock that surfaced was sealed; and where no frame is another with
the same sealed text under other first bytes, none surfaced twice.** -/
theorem surfaces_once {E : Ear} {log : List (Box Bytes Bytes)} (hideal : E.Ideal log) :
    (∀ h, Reach (Handler.act E) Handler.Onward .start h → h.Capped E) ∧
    ∀ h, Reach (Handler.act E) (fun h e => h.Onward e ∧ h.Near E log e ∧ h.Unaltered E log e) .start h →
      h.Once E log := by
  constructor
  · intro h hrun
    exact (hrun.invariant Handler.rated_start fun _ e hr hon => hr.act e hon).capped
  · intro h hrun
    exact (hrun.invariant Handler.inv_start fun _ e hi hok => hi.act hideal e hok.1 hok.2.1 hok.2.2).once'

/-! ## A knock that surfaces twice -/

namespace Altered

open Buffer (zeros)
open X25519 (ofHex twin)

def priv : Bytes := ofHex 0xa546e36bf0527c9d3b16154b82465edd62144c0ac1fc5a18506a2244ba449ac4

def eph : Bytes := ofHex 0xe6db6867583030db3594c1a424b15f7c726624ec26b3353b10a903a6d0ab1c4c

def secret : Bytes := ofHex 0xc3da55379de9c6908e94ea4df28d084f32eccf03491c71f754b4075577a28552

/-- The sealed text of a knock. -/
def knock : Box Bytes Bytes where
  key := (tagged.frameKey secret [1]).1
  nonce := (tagged.frameKey secret [1]).2
  aad := []
  ct := zeros (PLAIN_LEN + TAG_LEN)
  pt := layout KIND_REAL (zeros IK_LEN) [] []

def ear : Ear where
  crypto := { tagged with decrypt := fun k n ct => Box.openIn [knock] k n [] ct }
  inbox := [1]
  key := ⟨X25519.x25519 priv (ofHex (9 * 256 ^ 31)), X25519.deriveBits priv⟩
  maxPerMin := MAX_PER_MIN
  maxOpenPerMin := MAX_OPEN_PER_MIN

def captured : Bytes := eph ++ knock.ct

/-- The captured frame with one bit the other way. -/
def altered : Bytes := twin eph ++ knock.ct

def events : List Turn :=
  [.topics [(0, "inbox")], .message "inbox" captured 0, .opened 0 0, .message "inbox" altered 0, .opened 0 0]

theorem carries : ear.Carries knock captured ∧ ear.Carries knock altered := by decide +kernel

theorem calls : (events.foldl (Handler.act ear) .start).calls.map Call.frame = [captured, altered] := by
  decide +kernel

theorem ideal : ear.Ideal [knock] := fun _ _ _ => rfl

/-- The captured frame was heard and opened. -/
def once : Handler :=
  Handler.act ear (Handler.act ear (Handler.act ear .start (.topics [(0, "inbox")])) (.message "inbox" captured 0))
    (.opened 0 0)

theorem heard_captured : once.heard = [captured] := by decide +kernel

/-- Where one frame was heard, the next is near to it. -/
theorem near_of_heard {h : Handler} {f g : Bytes} (hheard : h.heard = [g]) (topic : String) (t : Time) :
    h.Near ear [knock] (.message topic f t) := by
  intro b _ _ pre g' post heq _
  rw [hheard] at heq
  cases pre with
  | nil =>
      cases heq
      exact Nat.zero_lt_succ _
  | cons x pre => exact absurd (congrArg List.length heq) (by simp)

theorem near_of_nil {h : Handler} {f : Bytes} (hheard : h.heard = []) (topic : String) (t : Time) :
    h.Near ear [knock] (.message topic f t) := by
  intro b _ _ pre g post heq _
  rw [hheard] at heq
  exact absurd (congrArg List.length heq) (by simp)

end Altered

open Altered in
/-- X25519 does not look at the top bit of a key, so a captured knock surfaces again with that bit the other way. -/
theorem altered_surfaces_twice : ear.Ideal [knock] ∧ ear.key.dh = X25519.deriveBits priv ∧
    Admits (Handler.act ear) (fun h e => h.Onward e ∧ h.Near ear [knock] e) .start events ∧
    ¬(events.foldl (Handler.act ear) .start).Once ear [knock] := by
  refine ⟨ideal, rfl, ?_, fun h => ?_⟩
  · exact ⟨⟨trivial, trivial⟩, ⟨by decide +kernel, near_of_nil rfl _ _⟩, ⟨by decide +kernel, trivial⟩,
      ⟨by decide +kernel, near_of_heard (h := once) heard_captured _ _⟩, ⟨by decide +kernel, trivial⟩, trivial⟩
  · have hle := h.once knock List.mem_cons_self
    have hmap : ∀ l : List Call, l.countP (fun c => ear.Carries knock c.frame) =
        (l.map Call.frame).countP (fun f => ear.Carries knock f) := by
      intro l
      rw [List.countP_map]
      rfl
    have htwo : [captured, altered].countP (fun f => ear.Carries knock f) = 2 := by
      simp [List.countP_cons, carries.1, carries.2]
    rw [hmap, calls, htwo] at hle
    omega

open Altered in
/-- The captured frame as it is surfaces once, however often it comes. -/
theorem surfaces_once_sample :
    (([.topics [(0, "inbox")], .message "inbox" captured 0, .opened 0 0, .message "inbox" captured 1] :
      List Turn).foldl (Handler.act ear) .start).Once ear [knock] := by
  refine (surfaces_once ideal).2 _ (Admits.reach .start ?_)
  refine ⟨⟨trivial, trivial, trivial⟩, ⟨by decide +kernel, near_of_nil rfl _ _, ?_⟩, ⟨by decide +kernel, trivial, trivial⟩,
    ⟨by decide +kernel, near_of_heard (h := once) heard_captured _ _, ?_⟩, trivial⟩
  · intro b _ _ g hg
    cases hg
  · intro b _ _ g hg _
    have hg : g ∈ once.heard := hg
    rw [heard_captured, List.mem_singleton] at hg
    rw [hg]

end EncedoChat.Inbox
