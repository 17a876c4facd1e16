import EncedoChat.Core.Handles
import EncedoChat.Lib.OrdMap
import EncedoChat.Lib.Run

/-!
# Handshakes over one table

The adapters of `eh2/wasm.ts` and `eh2/native.ts`: handshakes that are fed frames, and the sessions that come of them,
any number over one table of the core. In the page a call of the core is a part of the turn that makes it; in the shell
the host runs it some time after it was sent, and the answer is read some time after that.
-/

namespace EncedoChat.Core

open EncedoChat.Handshake (T_MSG1 T_MSG2 T_MSG3)
open EncedoChat.Eh2 (Role)

/-- What a feed or a session's call fails with. -/
inductive Stop where
  | core (f : Fault)
  /-- `unexpected frame after the handshake completed` -/
  | completed
  /-- `… expected msg…, got frame type …` -/
  | expected (msg : UInt8) (got : Option UInt8)
  /-- The identity's DH failed. -/
  | dh
  deriving DecidableEq

structure Adapter where
  role : Role
  ikPub : Bytes
  peerIkPub : Bytes
  tagKey : Bytes
  opts : RatchetOpts
  /-- 0 where there is none. -/
  h : Nat
  /-- `!live` of an initiator, `done` of a responder -/
  ended : Bool
  authenticated : Bool
  /-- What the promise is settled with: a session of the world's, by its place. -/
  session : Option (Except Stop Nat)

/-- A number that `sessionOf` was called with. -/
structure Wrapped where
  number : Nat
  freed : Bool

/-- A call of the core that a feed makes. -/
inductive Command where
  | peerEk (msg2 : Bytes)
  | complete (msg2 dh2 : Bytes)
  | respond (msg1 : Bytes)
  | respComplete (dh1 : Bytes)
  | finish (msg3 : Bytes)
  /-- `out`: what the feed returns after it. -/
  | session (out : Option Bytes)

/-- What a feed waits for. -/
inductive Waiting where
  | dh2 (msg2 : Bytes)
  | dh1
  /-- sent to the native host -/
  | sent (n : Nat) (cmd : Command)
  /-- run by it; `made` is the place of a session that came of it -/
  | answered (cmd : Command) (r : Except Fault Answer) (made : Nat)

structure World (C : Crate) where
  table : Table C
  adapters : List Adapter
  sessions : List Wrapped
  feeds : OrdMap Nat (Nat × Waiting)
  /-- what feeds and the sessions' calls have returned, newest first -/
  returned : List (Nat × Except Stop (Option Bytes))

inductive WorldAct where
  /-- `startHandshakeWasm`, `startHandshakeNative` -/
  | start (role : Role) (ikPub peerIkPub tagKey random : Bytes) (opts : RatchetOpts) (now : Nat)
  | feed (id i : Nat) (frame : Bytes) (now : Nat)
  /-- What a feed waits for has come; `dh` is what the identity's DH gave. -/
  | resume (id : Nat) (dh : Option Bytes) (random : Bytes) (now : Nat)
  | encrypt (id i : Nat) (random : Bytes) (now : Nat) (pt : Bytes)
  | decrypt (id i : Nat) (random : Bytes) (now : Nat) (frame : Bytes)
  /-- The sessions of the page have it, as they have `free`. -/
  | stats (id i : Nat)
  /-- `free`, or the collector's `ec_drop` of a session nobody has any more -/
  | free (j : Nat)

namespace Adapter

/-- The checks of a feed, up to the call of the core that it makes first. -/
def begin_ (a : Adapter) (frame : Bytes) : Except Stop Command :=
  match a.role with
  | .initiator =>
    if a.ended = true then .error .completed
    else if frame.head? ≠ some T_MSG2 then .error (.expected T_MSG2 frame.head?)
    else .ok (.peerEk frame)
  | .responder =>
    if a.h = 0 then
      if frame.head? ≠ some T_MSG1 then .error (.expected T_MSG1 frame.head?) else .ok (.respond frame)
    else if a.ended = true then .error .completed
    else if frame.head? ≠ some T_MSG3 then .error (.expected T_MSG3 frame.head?)
    else .ok (.finish frame)

/-- `resolve` and `reject`: the first of them settles the promise. -/
def settle (a : Adapter) (r : Except Stop Nat) : Adapter := { a with session := a.session.or (some r) }

end Adapter

namespace World

variable {C : Crate}

def start : World C := ⟨.empty, [], [], .empty, []⟩

variable (host : Host) (w : World C)

def wait (id i : Nat) (x : Waiting) : World C := { w with feeds := w.feeds.set id (i, x) }

/-- The feed's promise is settled. -/
def ret (id : Nat) (r : Except Stop (Option Bytes)) : World C :=
  { w with feeds := w.feeds.delete id, returned := (id, r) :: w.returned }

def update (i : Nat) (f : Adapter → Adapter) : World C := { w with adapters := w.adapters.modify i f }

/-- `catch (e) { reject(e); throw e }` -/
def throw (id i : Nat) (e : Stop) : World C := (w.update i fun a => a.settle (.error e)).ret id (.error e)

/-- The core runs a call on number `n`. -/
def exec (i : Nat) (a : Adapter) (n : Nat) (random : Bytes) (now : Nat) : Command → Except Fault Answer × World C
  | .peerEk msg2 =>
    let p := w.table.hsPeerEk n msg2
    (p.1, { w with table := p.2 })
  | .complete msg2 dh2 =>
    let p := w.table.hsInitiatorComplete host n msg2 dh2 now
    (p.1, { w with table := p.2 })
  | .respond msg1 =>
    let p := w.table.hsRespond (.handshake i) a.ikPub a.peerIkPub a.tagKey msg1 now
    (p.1, { w with table := p.2 })
  | .respComplete dh1 =>
    let p := w.table.hsResponderComplete host n dh1 random
    (p.1, { w with table := p.2 })
  | .finish msg3 =>
    let p := w.table.hsResponderFinish n msg3
    (p.1, { w with table := p.2 })
  | .session _ =>
    let p := w.table.session n (.session w.sessions.length) a.opts now
    match p.1 with
    | .ok ans => (.ok ans, { w with table := p.2, sessions := w.sessions ++ [⟨ans.number, false⟩] })
    | .error f => (.error f, { w with table := p.2 })

/-- `resolve(…)` once `ec_session` has answered -/
def onSession (id i : Nat) (out : Option Bytes) (r : Except Fault Answer) (made : Nat) : World C :=
  match r with
  | .error f => w.throw id i (.core f)
  | .ok _ => (w.update i fun a => a.settle (.ok made)).ret id (.ok out)

/-- `toSession` -/
def toSession (id i : Nat) (out : Option Bytes) (now : Nat) : World C :=
  match w.adapters[i]? with
  | none => w
  | some a =>
    match host with
    | .native => w.wait id i (.sent a.h (.session out))
    | .wasm =>
      let p := w.exec host i a a.h [] now (.session out)
      p.2.onSession id i out p.1 w.sessions.length

/-- A feed goes on with what a call of the core has answered. -/
def onReply (id i : Nat) (now made : Nat) (cmd : Command) (r : Except Fault Answer) : World C :=
  match cmd, r with
  | .session out, r => w.onSession id i out r made
  | _, .error f => w.throw id i (.core f)
  | .peerEk msg2, .ok _ => w.wait id i (.dh2 msg2)
  | .respond _, .ok ans => (w.update i fun a => { a with h := ans.number }).wait id i .dh1
  | .complete .., .ok ans =>
    (w.update i fun a => { a with ended := true, authenticated := true }).toSession host id i (some ans.out) now
  | .respComplete _, .ok ans => w.ret id (.ok (some ans.out))
  | .finish _, .ok _ =>
    (w.update i fun a => { a with ended := true, authenticated := true }).toSession host id i none now

/-- A feed calls the core with the adapter's number. -/
def invoke (id i : Nat) (a : Adapter) (random : Bytes) (now : Nat) (cmd : Command) : World C :=
  match host with
  | .native => w.wait id i (.sent a.h cmd)
  | .wasm =>
    let p := w.exec host i a a.h random now cmd
    p.2.onReply host id i now w.sessions.length cmd p.1

def feed (id i : Nat) (frame : Bytes) (now : Nat) : World C :=
  match w.adapters[i]? with
  | none => w
  | some a =>
    match a.begin_ frame with
    | .ok cmd => w.invoke host id i a [] now cmd
    | .error e =>
      match a.role with
      | .initiator => w.ret id (.error e)
      | .responder => w.throw id i e

/-- A feed goes on with the identity's DH. -/
def onDh (id i : Nat) (a : Adapter) (dh : Option Bytes) (random : Bytes) (now : Nat) (cmd : Bytes → Command) : World C :=
  match dh with
  | none => w.throw id i .dh
  | some dh => w.invoke host id i a random now (cmd dh)

def resume (id : Nat) (dh : Option Bytes) (random : Bytes) (now : Nat) : World C :=
  match w.feeds.get id with
  | none => w
  | some (i, x) =>
    match w.adapters[i]? with
    | none => w
    | some a =>
      match x with
      | .dh2 msg2 => w.onDh host id i a dh random now (.complete msg2)
      | .dh1 => w.onDh host id i a dh random now .respComplete
      | .sent n cmd =>
        let p := w.exec .native i a n random now cmd
        p.2.wait id i (.answered cmd p.1 w.sessions.length)
      | .answered cmd r made => w.onReply .native id i now made cmd r

/-- The session that the adapter's promise was resolved with. -/
def resolved (i : Nat) : Option (Nat × Wrapped) :=
  match (w.adapters[i]?).bind Adapter.session with
  | some (.ok j) => (w.sessions[j]?).map fun s => (j, s)
  | _ => none

/-- A call of a session's. -/
def call (id i : Nat) (f : Nat → Except Fault Answer × Table C) : World C :=
  match w.resolved i with
  | none => w
  | some (_, s) =>
    let p := f s.number
    let r : Except Stop (Option Bytes) :=
      match p.1 with
      | .ok ans => .ok (if ans.number = 0 then some ans.out else none)
      | .error e => .error (.core e)
    { w with table := p.2 }.ret id r

def free (j : Nat) : World C :=
  match w.sessions[j]? with
  | none => w
  | some s => { w with table := w.table.drop s.number, sessions := w.sessions.set j { s with freed := true } }

def act : WorldAct → World C
  | .start role ikPub peerIkPub tagKey random opts now =>
    if peerIkPub.length ≠ 32 ∨ tagKey.length ≠ 32 then w
    else
      let a : Adapter := ⟨role, ikPub, peerIkPub, tagKey, opts, 0, false, false, none⟩
      match role with
      | .responder => { w with adapters := w.adapters ++ [a] }
      | .initiator =>
        let p := w.table.hsInitiate (.handshake w.adapters.length) ikPub peerIkPub tagKey random now
        { w with table := p.2, adapters := w.adapters ++ [{ a with h := p.1.number }] }
  | .feed id i frame now => if (w.feeds.get id).isSome then w else w.feed host id i frame now
  | .resume id dh random now => w.resume host id dh random now
  | .encrypt id i random now pt => w.call id i fun n => w.table.rtEncrypt n random now pt
  | .decrypt id i random now frame => w.call id i fun n => w.table.rtDecrypt n random now frame
  | .stats id i =>
    match host with
    | .wasm => w.call id i fun n => w.table.rtStats n
    | .native => w
  | .free j =>
    match host with
    | .wasm => w.free j
    | .native => w

/-! ## Whose objects a step may touch -/

/-- The handshake or the session that a step is made through. -/
def actor : WorldAct → Option Owner
  | .start .. => none
  | .feed _ i .. => some (.handshake i)
  | .resume id .. => (w.feeds.get id).map fun p => .handshake p.1
  | .encrypt _ i .. | .decrypt _ i .. | .stats _ i => (w.resolved i).map fun p => .session p.1
  | .free j => some (.session j)

/-- A call of the core with number `n` finds what the handshake has there, or nothing. -/
def MayCall (i n : Nat) : Command → Prop
  | .respond _ => True
  | _ => w.table.Mine n (.handshake i)

/-- What a feed waits for is the identity's DH: it calls the core when that is there, and in the page at once. -/
def MayGoOn (i : Nat) (a : Adapter) (dh : Option Bytes) : Waiting → Prop
  | .dh2 _ | .dh1 => host = .wasm → dh.isSome = true → w.table.Mine a.h (.handshake i)
  | .sent n cmd => w.MayCall i n cmd
  | .answered .. => True

/-- Where the step calls the core with a number, the slot has what was put there for the number's user, or nothing. -/
def Careful : WorldAct → Prop
  | .start .. => True
  | .feed _ i frame _ =>
    host = .wasm → ∀ a ∈ w.adapters[i]?, ∀ cmd ∈ (a.begin_ frame).toOption, w.MayCall i a.h cmd
  | .resume id dh _ _ => ∀ p ∈ w.feeds.get id, ∀ a ∈ w.adapters[p.1]?, w.MayGoOn host p.1 a dh p.2
  | .encrypt _ i .. | .decrypt _ i .. | .stats _ i =>
    ∀ p ∈ w.resolved i, w.table.Mine p.2.number (.session p.1)
  | .free j => ∀ s ∈ w.sessions[j]?, w.table.Mine s.number (.session j)

instance (t : Table C) (n : Nat) (who : Owner) : Decidable (t.Mine n who) :=
  inferInstanceAs (Decidable (∀ x ∈ Slots.get t n, x.1 = who))

instance (i n : Nat) : (cmd : Command) → Decidable (w.MayCall i n cmd)
  | .respond _ => isTrue trivial
  | .peerEk _ | .complete .. | .respComplete _ | .finish _ | .session _ => inferInstanceAs (Decidable (w.table.Mine ..))

instance (i : Nat) (a : Adapter) (dh : Option Bytes) : (x : Waiting) → Decidable (w.MayGoOn host i a dh x)
  | .dh2 _ | .dh1 => inferInstanceAs (Decidable (_ → _ → w.table.Mine ..))
  | .sent .. => inferInstanceAs (Decidable (w.MayCall ..))
  | .answered .. => isTrue trivial

instance : (a : WorldAct) → Decidable (w.Careful host a)
  | .start .. => isTrue trivial
  | .feed .. => inferInstanceAs (Decidable (_ → ∀ a ∈ _, ∀ cmd ∈ _, w.MayCall ..))
  | .resume .. => inferInstanceAs (Decidable (∀ p ∈ _, ∀ a ∈ _, w.MayGoOn host ..))
  | .encrypt .. | .decrypt .. | .stats .. => inferInstanceAs (Decidable (∀ p ∈ _, w.table.Mine ..))
  | .free _ => inferInstanceAs (Decidable (∀ s ∈ _, w.table.Mine ..))

/-- A session that was not freed has its ratchet in its slot. -/
def Kept : Prop :=
  ∀ j s, w.sessions[j]? = some s → s.freed = false → ∃ rt, w.table.get s.number = some (.session j, .rt rt)

variable {host : Host} {w w' : World C}

/-- What a handshake's step does: other objects are where they were, and a new session has its ratchet. -/
structure Tends (w w' : World C) (i : Nat) : Prop where
  spares : w.table.Spares w'.table (.handshake i)
  sessions : ∀ j s, w'.sessions[j]? = some s → w.sessions[j]? = some s ∨
    ∃ rt, w'.table.get s.number = some (.session j, .rt rt)

variable {i n : Nat} {a : Adapter} {cmd : Command}

theorem Tends.of_eq (ht : w'.table = w.table) (hs : w'.sessions = w.sessions) : w.Tends w' i where
  spares m x hx _ := by rwa [ht]
  sessions j s hj := Or.inl (hs ▸ hj)

theorem Tends.trans {w'' : World C} (h : w.Tends w' i) (h' : w'.Tends w'' i) : w.Tends w'' i where
  spares := h.spares.trans h'.spares
  sessions j s hj := by
    obtain hj | hj := h'.sessions j s hj
    · obtain hj | ⟨rt, hrt⟩ := h.sessions j s hj
      · exact Or.inl hj
      · exact Or.inr ⟨rt, h'.spares _ _ hrt (fun he => by cases he)⟩
    · exact Or.inr hj

theorem Tends.leaves {t : Table C} (h : w.table.Leaves n t) (hmine : w.table.Mine n (.handshake i)) :
    w.Tends { w with table := t } i :=
  ⟨h.spares hmine, fun _ _ hj => Or.inl hj⟩

theorem exec_tends (hmay : w.MayCall i n cmd) (random : Bytes) (now : Nat) :
    w.Tends (w.exec host i a n random now cmd).2 i := by
  cases cmd with
  | peerEk msg2 => exact .leaves (Table.leaves_through ..) hmay
  | complete msg2 dh2 => exact .leaves (Table.leaves_through ..) hmay
  | respond msg1 =>
      refine ⟨?_, fun _ _ hj => Or.inl hj⟩
      show w.table.Spares (w.table.hsRespond (.handshake i) a.ikPub a.peerIkPub a.tagKey msg1 now).2 _
      unfold Table.hsRespond
      split
      · exact fun _ _ hx _ => Slots.get_put_of_some hx _
      · exact fun _ _ hx _ => hx
  | respComplete dh1 => exact .leaves (Table.leaves_through ..) hmay
  | finish msg3 => exact .leaves (Table.leaves_through ..) hmay
  | session out =>
      have hlost := Table.Leaves.spares (Table.Leaves.lost (t := w.table) (n := n)) hmay
      obtain he | ⟨rt, he⟩ := w.table.session_cases n (.session w.sessions.length) a.opts now
      · rw [exec, he]
        exact ⟨hlost, fun _ _ hj => Or.inl hj⟩
      · rw [exec, he]
        refine ⟨hlost.trans fun _ _ hx _ => Slots.get_put_of_some hx _, ?_⟩
        intro j s hj
        have hj : (w.sessions ++ [_])[j]? = some s := hj
        rw [List.getElem?_append] at hj
        split at hj
        · exact Or.inl hj
        · rw [List.getElem?_singleton] at hj
          split at hj
          · rename_i hge hz
            cases hj
            obtain rfl : j = w.sessions.length := by omega
            refine Or.inr ⟨rt, ?_⟩
            obtain ⟨-, hput⟩ := Slots.put_spec (w.table.clear n) (Owner.session w.sessions.length, Obj.rt rt)
            exact (hput _).trans (if_pos rfl)
          · cases hj

theorem exec_adapters (host : Host) (w : World C) (i : Nat) (a : Adapter) (n : Nat) (random : Bytes) (now : Nat)
    (cmd : Command) : (w.exec host i a n random now cmd).2.adapters = w.adapters := by
  cases cmd with
  | session out =>
      rw [exec]
      split <;> rfl
  | _ => rfl

/-- What is left in the slot is the handshake's own. -/
theorem exec_mine (hcmd : (∃ msg2 dh2, cmd = .complete msg2 dh2) ∨ ∃ msg3, cmd = .finish msg3)
    (hmay : w.MayCall i n cmd) (random : Bytes) (now : Nat) :
    (w.exec host i a n random now cmd).2.table.Mine n (.handshake i) := by
  obtain ⟨msg2, dh2, rfl⟩ | ⟨msg3, rfl⟩ := hcmd
  · exact (Table.leaves_through ..).mine hmay
  · exact (Table.leaves_through ..).mine hmay

theorem throw_tends (w : World C) (id i : Nat) (e : Stop) : w.Tends (w.throw id i e) i := .of_eq rfl rfl

theorem onSession_tends (w : World C) (id i : Nat) (out : Option Bytes) (r : Except Fault Answer) (made : Nat) :
    w.Tends (w.onSession id i out r made) i := by
  cases r <;> exact .of_eq rfl rfl

theorem toSession_tends (id : Nat) (out : Option Bytes) (now : Nat)
    (hmine : host = .wasm → ∀ a ∈ w.adapters[i]?, w.table.Mine a.h (.handshake i)) :
    w.Tends (w.toSession host id i out now) i := by
  unfold toSession
  split
  · exact .of_eq rfl rfl
  · rename_i a ha
    cases host with
    | native => exact .of_eq rfl rfl
    | wasm =>
        have hmay : w.MayCall i a.h (.session out) := hmine rfl a ha
        exact (exec_tends hmay ..).trans (onSession_tends ..)

theorem onReply_tends (id now made : Nat) (r : Except Fault Answer)
    (hmine : host = .wasm → ((∃ msg2 dh2, cmd = .complete msg2 dh2) ∨ ∃ msg3, cmd = .finish msg3) →
      ∀ a ∈ w.adapters[i]?, w.table.Mine a.h (.handshake i)) :
    w.Tends (w.onReply host id i now made cmd r) i := by
  have hsession : ∀ (f : Adapter → Adapter) out, (∀ a, (f a).h = a.h) →
      ((∃ msg2 dh2, cmd = .complete msg2 dh2) ∨ ∃ msg3, cmd = .finish msg3) →
        w.Tends ((w.update i f).toSession host id i out now) i := by
    intro f out hf hcmd
    have hupdate : w.Tends (w.update i f) i := .of_eq rfl rfl
    refine hupdate.trans (toSession_tends id out now ?_)
    intro hh a ha
    have ha : (w.adapters.modify i f)[i]? = some a := ha
    rw [List.getElem?_modify_eq] at ha
    obtain ⟨a₀, ha₀, rfl⟩ := Option.map_eq_some_iff.mp ha
    rw [hf]
    exact hmine hh hcmd a₀ ha₀
  cases r with
  | error f => cases cmd <;> exact .of_eq rfl rfl
  | ok ans =>
      cases cmd with
      | complete msg2 dh2 => exact hsession _ _ (fun _ => rfl) (Or.inl ⟨msg2, dh2, rfl⟩)
      | finish msg3 => exact hsession _ _ (fun _ => rfl) (Or.inr ⟨msg3, rfl⟩)
      | _ => exact .of_eq rfl rfl

theorem invoke_tends (id : Nat) (random : Bytes) (now : Nat) (ha : w.adapters[i]? = some a)
    (hmay : host = .wasm → w.MayCall i a.h cmd) : w.Tends (w.invoke host id i a random now cmd) i := by
  unfold invoke
  cases host with
  | native => exact .of_eq rfl rfl
  | wasm =>
      refine (exec_tends (hmay rfl) ..).trans (onReply_tends _ _ _ _ ?_)
      rintro - hcmd a' ha'
      rw [exec_adapters, ha] at ha'
      cases ha'
      exact exec_mine hcmd (hmay rfl) _ _

theorem onDh_tends (id : Nat) (dh : Option Bytes) (random : Bytes) (now : Nat) (f : Bytes → Command)
    (ha : w.adapters[i]? = some a) (hmay : host = .wasm → ∀ b ∈ dh, w.MayCall i a.h (f b)) :
    w.Tends (w.onDh host id i a dh random now f) i := by
  unfold onDh
  split
  · exact throw_tends ..
  · exact invoke_tends _ _ _ ha fun hh => hmay hh _ rfl

theorem feed_tends (id : Nat) (frame : Bytes) (now : Nat) (hok : w.Careful host (.feed id i frame now)) :
    w.Tends (w.feed host id i frame now) i := by
  unfold feed
  split
  · exact .of_eq rfl rfl
  · rename_i a ha
    split
    · rename_i cmd hcmd
      refine invoke_tends _ _ _ ha fun hh => hok hh a ha cmd ?_
      rw [hcmd]
      rfl
    · cases a.role <;> exact .of_eq rfl rfl

theorem resume_tends (id : Nat) (dh : Option Bytes) (random : Bytes) (now : Nat) {x : Waiting}
    (hx : w.feeds.get id = some (i, x)) (hok : w.Careful host (.resume id dh random now)) :
    w.Tends (w.resume host id dh random now) i := by
  unfold resume
  rw [hx]
  dsimp only
  cases ha : w.adapters[i]? with
  | none => exact .of_eq rfl rfl
  | some a =>
      have hgo : w.MayGoOn host i a dh x := hok (i, x) hx a ha
      cases x with
      | dh2 msg2 =>
          refine onDh_tends _ _ _ _ _ ha ?_
          rintro hh b rfl
          exact hgo hh rfl
      | dh1 =>
          refine onDh_tends _ _ _ _ _ ha ?_
          rintro hh b rfl
          exact hgo hh rfl
      | sent n cmd => exact (exec_tends hgo ..).trans (.of_eq rfl rfl)
      | answered cmd r made => exact onReply_tends _ _ _ _ fun hh => by cases hh

/-! ## Sessions are kept -/

/-- A call of a session leaves a ratchet where it finds one. -/
def Serves (t : Table C) (f : Nat → Except Fault Answer × Table C) : Prop :=
  ∀ n, t.Leaves n (f n).2 ∧ ∀ who rt, t.get n = some (who, .rt rt) → ∃ rt', (f n).2.get n = some (who, .rt rt')

theorem Kept.tends (h : w.Kept) (ht : w.Tends w' i) : w'.Kept := by
  intro j s hj hfreed
  obtain hj | hrt := ht.sessions j s hj
  · obtain ⟨rt, hrt⟩ := h j s hj hfreed
    exact ⟨rt, ht.spares _ _ hrt (fun he => by cases he)⟩
  · exact hrt

theorem resolved_some {j : Nat} {s : Wrapped} (h : w.resolved i = some (j, s)) : w.sessions[j]? = some s := by
  unfold resolved at h
  split at h
  · obtain ⟨s', hs, he⟩ := Option.map_eq_some_iff.mp h
    cases he
    exact hs
  · cases h

/-- A session's call spares what is not the session's. -/
theorem call_spares {f : Nat → Except Fault Answer × Table C} (hf : Serves w.table f) {j : Nat} {s : Wrapped}
    (hj : w.resolved i = some (j, s)) (hmine : w.table.Mine s.number (.session j)) (id : Nat) :
    w.table.Spares (w.call id i f).table (.session j) := by
  unfold call
  rw [hj]
  exact (hf s.number).1.spares hmine

theorem Kept.call (h : w.Kept) {f : Nat → Except Fault Answer × Table C} (hf : Serves w.table f)
    (hok : ∀ p ∈ w.resolved i, w.table.Mine p.2.number (.session p.1)) (id : Nat) : (w.call id i f).Kept := by
  cases hj : w.resolved i with
  | none =>
      unfold World.call
      rw [hj]
      exact h
  | some p =>
      obtain ⟨j, s⟩ := p
      have hspares := call_spares hf hj (hok _ hj) id
      have hsessions : (w.call id i f).sessions = w.sessions := by
        unfold World.call
        rw [hj]
        rfl
      intro j' s' hj' hfreed
      rw [hsessions] at hj'
      obtain ⟨rt, hrt⟩ := h j' s' hj' hfreed
      by_cases he : j' = j
      · subst he
        rw [resolved_some hj] at hj'
        cases hj'
        unfold World.call
        rw [hj]
        exact (hf s.number).2 _ rt hrt
      · exact ⟨rt, hspares _ _ hrt fun hs => he (Owner.session.inj hs)⟩

theorem free_spares {j : Nat} (hok : ∀ s ∈ w.sessions[j]?, w.table.Mine s.number (.session j)) :
    w.table.Spares (w.free j).table (.session j) := by
  unfold free
  cases hj : w.sessions[j]? with
  | none => exact fun _ _ hx _ => hx
  | some s => exact Table.Leaves.lost.spares (hok s hj)

theorem Kept.free (h : w.Kept) {j : Nat} (hok : ∀ s ∈ w.sessions[j]?, w.table.Mine s.number (.session j)) :
    (w.free j).Kept := by
  have hspares := free_spares hok
  intro j' s' hj' hfreed
  have hold : j' ≠ j ∧ w.sessions[j']? = some s' := by
    unfold World.free at hj'
    cases hj : w.sessions[j]? with
    | none =>
        rw [hj] at hj'
        refine ⟨?_, hj'⟩
        rintro rfl
        rw [hj] at hj'
        cases hj'
    | some s =>
        rw [hj] at hj'
        have hj' : (w.sessions.set j { s with freed := true })[j']? = some s' := hj'
        rw [List.getElem?_set] at hj'
        split at hj'
        · split at hj'
          · cases hj'
            cases hfreed
          · cases hj'
        · rename_i hne
          exact ⟨Ne.symm hne, hj'⟩
  obtain ⟨rt, hrt⟩ := h j' s' hold.2 hfreed
  exact ⟨rt, hspares _ _ hrt fun hs => hold.1 (Owner.session.inj hs)⟩

/-! ## Runs -/

theorem serves_rtEncrypt (t : Table C) (random : Bytes) (now : Nat) (pt : Bytes) :
    Serves t fun n => t.rtEncrypt n random now pt :=
  fun _ => ⟨Table.leaves_through .., fun _ _ h => ⟨_, (Table.rtEncrypt_ok h random now pt).2⟩⟩

theorem serves_rtDecrypt (t : Table C) (random : Bytes) (now : Nat) (frame : Bytes) :
    Serves t fun n => t.rtDecrypt n random now frame :=
  fun _ => ⟨Table.leaves_through .., fun _ _ h => ⟨_, (Table.rtDecrypt_ok h random now frame).2⟩⟩

theorem serves_rtStats (t : Table C) : Serves t fun n => t.rtStats n :=
  fun _ => ⟨Table.leaves_through .., fun _ _ h => ⟨_, (Table.rtStats_ok h).2⟩⟩

/-- A handshake starts in a slot that nothing is in. -/
theorem start_spares {role : Role} {ikPub peerIkPub tagKey random : Bytes} {opts : RatchetOpts} {now m : Nat}
    {x : Owner × Obj C} (hx : w.table.get m = some x) :
    (w.act host (.start role ikPub peerIkPub tagKey random opts now)).table.get m = some x := by
  rw [act]
  split
  · exact hx
  · cases role with
    | responder => exact hx
    | initiator => exact Slots.get_put_of_some hx _

theorem start_sessions (host : Host) (w : World C) (role : Role) (ikPub peerIkPub tagKey random : Bytes)
    (opts : RatchetOpts) (now : Nat) :
    (w.act host (.start role ikPub peerIkPub tagKey random opts now)).sessions = w.sessions := by
  rw [act]
  split
  · rfl
  · cases role <;> rfl

theorem Kept.act (h : w.Kept) (a : WorldAct) (hok : w.Careful host a) : (w.act host a).Kept := by
  cases a with
  | start role ikPub peerIkPub tagKey random opts now =>
      intro j s hj hfreed
      rw [start_sessions] at hj
      obtain ⟨rt, hrt⟩ := h j s hj hfreed
      exact ⟨rt, start_spares hrt⟩
  | feed id i frame now =>
      rw [World.act]
      split
      · exact h
      · exact h.tends (feed_tends id frame now hok)
  | resume id dh random now =>
      rw [World.act]
      cases hx : w.feeds.get id with
      | none =>
          rw [World.resume, hx]
          exact h
      | some p => exact h.tends (resume_tends id dh random now hx hok)
  | encrypt id i random now pt => exact h.call (serves_rtEncrypt _ random now pt) hok id
  | decrypt id i random now frame => exact h.call (serves_rtDecrypt _ random now frame) hok id
  | stats id i =>
      cases host with
      | wasm => exact h.call (serves_rtStats _) hok id
      | native => exact h
  | free j =>
      cases host with
      | wasm => exact h.free hok
      | native => exact h

/-- What a session's call spares, whoever makes it. -/
theorem spares_call {f : Nat → Except Fault Answer × Table C} (hf : Serves w.table f)
    (hok : ∀ p ∈ w.resolved i, w.table.Mine p.2.number (.session p.1)) (id m : Nat) {x : Owner × Obj C}
    (hx : w.table.get m = some x) (hne : (w.resolved i).map (fun p => Owner.session p.1) ≠ some x.1) :
    (w.call id i f).table.get m = some x := by
  cases hj : w.resolved i with
  | none =>
      unfold call
      rw [hj]
      exact hx
  | some p =>
      obtain ⟨j, s⟩ := p
      refine call_spares hf hj (hok _ hj) id m x hx ?_
      rintro he
      rw [hj, he] at hne
      exact hne rfl

theorem spares_act (a : WorldAct) (hok : w.Careful host a) (m : Nat) {x : Owner × Obj C} (hx : w.table.get m = some x)
    (hne : w.actor a ≠ some x.1) : (w.act host a).table.get m = some x := by
  have hother : ∀ {o : Owner}, some o ≠ some x.1 → x.1 ≠ o := fun h he => h (congrArg some he.symm)
  cases a with
  | start role ikPub peerIkPub tagKey random opts now => exact start_spares hx
  | feed id i frame now =>
      rw [act]
      split
      · exact hx
      · exact (feed_tends id frame now hok).spares m x hx (hother hne)
  | resume id dh random now =>
      rw [act]
      cases hp : w.feeds.get id with
      | none =>
          rw [resume, hp]
          exact hx
      | some p =>
          rw [actor, hp] at hne
          exact (resume_tends id dh random now hp hok).spares m x hx (hother hne)
  | encrypt id i random now pt => exact spares_call (serves_rtEncrypt _ random now pt) hok id m hx hne
  | decrypt id i random now frame => exact spares_call (serves_rtDecrypt _ random now frame) hok id m hx hne
  | stats id i =>
      cases host with
      | wasm => exact spares_call (serves_rtStats _) hok id m hx hne
      | native => exact hx
  | free j =>
      cases host with
      | wasm => exact free_spares hok m x hx (hother hne)
      | native => exact hx

/-- A session that its adapter's promise was resolved with, and that was not freed, seals and opens. -/
def Working (w : World C) : Prop :=
  ∀ i j s, w.resolved i = some (j, s) → s.freed = false → ∀ random now b,
    (∃ out, (w.table.rtEncrypt s.number random now b).1 = .ok out) ∧
      (w.table.rtDecrypt s.number random now b).1 ≠ .error .notSession

theorem Kept.working (h : w.Kept) : w.Working := by
  intro i j s hj hfreed random now b
  obtain ⟨rt, hrt⟩ := h j s (resolved_some hj) hfreed
  refine ⟨⟨_, (Table.rtEncrypt_ok hrt random now b).1⟩, ?_⟩
  rw [(Table.rtDecrypt_ok hrt random now b).1]
  exact Table.opened_ne _

theorem kept_start : (start : World C).Kept := by
  intro j s hj
  cases hj

end World

/-! ## Numbers that are used again -/

namespace Symbolic

/-- msg2 verifies where it ends in the initiator's randomness, and msg3 where it is what the initiator made of msg2. -/
def crate : Crate where
  Initiator := Bytes
  ResponderBegin := Bytes
  Responder := Bytes
  HandshakeResult := Bytes
  Ratchet := Bytes
  initiator _ _ _ random _ := random
  msg1 random := T_MSG1 :: random
  peerEkOf _ msg2 := .ok (msg2.drop 1)
  completeI random msg2 _ _ := if msg2 = T_MSG2 :: random then .ok (T_MSG3 :: random, random) else .error .macR
  responderBegin _ _ _ msg1 _ := .ok (msg1.drop 1)
  peerEk random := random
  completeR random _ _ := .ok (T_MSG2 :: random, random)
  finish random msg3 := if msg3 = T_MSG3 :: random then .ok random else .error .macI
  fromHandshake random _ _ := random
  encrypt rt _ _ pt := (rt, pt)
  decrypt rt _ _ frame := (rt, .ok (some frame))
  stats _ := []

def pub : Bytes := List.replicate 32 0

def initiate (random : Bytes) : WorldAct := .start .initiator pub pub pub random {} 0

def play (as : List WorldAct) : World crate := as.foldl (World.act .wasm) .start

/-- msg2 is fed twice while the identity's DH is waited for. -/
def twice : List WorldAct :=
  [initiate [5], .feed 0 0 [T_MSG2, 5] 0, .feed 1 0 [T_MSG2, 5] 0, .resume 0 (some pub) [] 0, .resume 1 (some pub) [] 0]

/-- A forged msg2 is fed, another handshake starts, and the forged msg2 is fed again. -/
def strayed : List WorldAct :=
  [initiate [5], .feed 0 0 [T_MSG2, 6] 0, .resume 0 (some pub) [] 0, initiate [7], .feed 0 0 [T_MSG2, 6] 0]

/-- An initiator and a responder over one table, each fed what the other returned. -/
def both : List WorldAct :=
  [initiate [5], .start .responder pub pub pub [] {} 0, .feed 0 1 [T_MSG1, 5] 0, .feed 1 0 [T_MSG2, 5] 0,
    .resume 0 (some pub) [] 0, .resume 1 (some pub) [] 0, .feed 0 1 [T_MSG3, 5] 0, .encrypt 0 0 [] 0 [7], .free 0]

end Symbolic

end EncedoChat.Core
