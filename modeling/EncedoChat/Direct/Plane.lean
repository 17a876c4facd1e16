import EncedoChat.Lib.Run

/-!
# The direct plane of a room

`attachWebRTC` of `net/webrtc-plane.ts` over the links of `net/webrtc.ts` and `net/webrtc-tauri.ts`: which link the
content sender in the room writes to. Every link that was ever made may go on to deliver what it has heard.
-/

namespace EncedoChat.Direct

/-- The two links; they close differently. -/
inductive Implementation where
  | browser
  | desktop
  deriving DecidableEq

inductive ConnectionState where
  | new
  | connecting
  | connected
  | disconnected
  | failed
  | closed
  deriving DecidableEq

def ConnectionState.ends : ConnectionState → Bool
  | .failed => true
  | .closed => true
  | .disconnected => true
  | _ => false

/-- What a link hears of its channel. -/
inductive Heard where
  | open'
  | pong
  | close
  | state (conn : ConnectionState)
  deriving DecidableEq

structure Link (P : Type) where
  peer : P
  ready : Bool
  /-- `close()` was called -/
  closed : Bool
  deriving DecidableEq

structure Plane (P : Type) where
  /-- the links that were made, the oldest first -/
  links : List (Link P)
  link : Option Nat
  linkPeer : Option P
  demoted : Bool
  attempt : Nat
  /-- the peer of the timer that is set -/
  attemptTimer : Option P
  /-- the room has the plane's sender -/
  contentSend : Bool

inductive Event (P : Type) where
  | peer (peer : P)
  | signal (sender to' : P)
  /-- `attemptTimer` -/
  | timeout
  | demote
  | stop
  | link (i : Nat) (e : Heard)

def MAX_ATTEMPTS : Nat := 3

/-- Where a message goes. -/
inductive Via where
  | relay
  | direct (i : Nat)
  | dropped
  deriving DecidableEq

namespace Plane

variable {P : Type} [DecidableEq P] [LT P] [DecidableLT P] (impl : Implementation) (self : P) (p : Plane P)

def start : Plane P := ⟨[], none, none, false, 0, none, false⟩

/-- `link` -/
def current : Option (Link P) := p.link.bind (p.links[·]?)

/-- `link?.ready` -/
def isReady : Bool := (p.current.map Link.ready).getD false

/-! ## Links -/

def setLink (i : Nat) (l : Link P) : Plane P := { p with links := p.links.set i l }

/-- `onOpen` of a link of the peer. -/
def onOpen (peer : P) : Plane P :=
  let p := { p with attemptTimer := none }
  -- only the peer is compared: an older link of it passes as well
  if !p.demoted && p.linkPeer = some peer then { p with contentSend := true } else p

/-- `onClose` of a link of the peer. -/
def onClose (peer : P) : Plane P := if p.linkPeer = some peer then { p with contentSend := false } else p

/-- A link that was ready is not. -/
def lapse (i : Nat) (l : Link P) : Plane P :=
  if l.ready then (p.setLink i { l with ready := false }).onClose l.peer else p

/-- `close` of a link. -/
def closeLink (i : Nat) : Plane P :=
  match p.links[i]? with
  | none => p
  | some l =>
    let p := p.setLink i { l with closed := true }
    match impl with
    | .browser => p -- what it still hears tells it that it has closed
    | .desktop => p.lapse i { l with closed := true }

/-- `link?.close()` -/
def closeCurrent : Plane P := p.link.elim p (p.closeLink impl)

/-- What a link does with what it hears. -/
def hear (i : Nat) (e : Heard) : Plane P :=
  match p.links[i]? with
  | none => p
  | some l =>
    match e with
    | .open' => p -- the probe starts
    | .pong => if l.ready then p else (p.setLink i { l with ready := true }).onOpen l.peer
    | .close => p.lapse i l
    | .state conn => if conn.ends then p.lapse i l else p

/-! ## The plane -/

def connect (peer : P) : Plane P :=
  let p := { p with attemptTimer := none, attempt := p.attempt + 1 }
  let p := p.closeCurrent impl
  let p := { p with links := p.links ++ [⟨peer, false, false⟩], link := some p.links.length }
  if ¬ self < peer ∨ MAX_ATTEMPTS ≤ p.attempt then p else { p with attemptTimer := some peer }

def onPeer (peer : P) : Plane P :=
  if peer = self ∨ (p.link.isSome ∧ p.linkPeer = some peer) then p
  else
    let p := { p with attempt := 0 }
    let p := if p.link.isSome then { p.closeCurrent impl with contentSend := false, demoted := false } else p
    { p with linkPeer := some peer }.connect impl self peer

def timeout : Plane P :=
  match p.attemptTimer with
  | none => p
  | some peer =>
    let p := { p with attemptTimer := none }
    if p.demoted ∨ p.linkPeer ≠ some peer ∨ p.isReady then p else p.connect impl self peer

/-- The link of the channel that `direct` gives. -/
def direct : Option Nat := if p.isReady && !p.demoted then p.link else none

def demote : Plane P :=
  if p.demoted then p else { p with demoted := true, attemptTimer := none, contentSend := false }

def onSignal (sender to' : P) : Plane P :=
  if to' ≠ self then p else if p.linkPeer ≠ some sender then p.onPeer impl self sender else p

def stop : Plane P :=
  let p := { p with attemptTimer := none }
  { p.closeCurrent impl with link := none, linkPeer := none, contentSend := false }

def step : Event P → Plane P
  | .peer peer => p.onPeer impl self peer
  | .signal sender to' => p.onSignal impl self sender to'
  | .timeout => p.timeout impl self
  | .demote => p.demote
  | .stop => p.stop impl
  | .link i e => p.hear i e

/-- What becomes of a message of the room. -/
def send : Via :=
  if p.contentSend then
    match p.link, p.current with
    | some i, some l => if l.ready && !l.closed then .direct i else .dropped
    | _, _ => .dropped
  else .relay

end Plane

/-! ## What has happened on the links -/

/-- A ping came back, and the channel has not closed since. -/
def Heard.after : Heard → Bool → Bool
  | .open', proven => proven
  | .pong, _ => true
  | .close, _ => false
  | .state conn, proven => proven && !conn.ends

/-- A plane, what its links have heard, the newest first, and the peers that content was demoted for. -/
structure Trial (P : Type) where
  plane : Plane P
  heard : List (Nat × Heard)
  demotedFor : List P

namespace Trial

variable {P : Type} [DecidableEq P] [LT P] [DecidableLT P] (impl : Implementation) (self : P)

def start : Trial P := ⟨.start, [], []⟩

def step (t : Trial P) (e : Event P) : Trial P where
  plane := t.plane.step impl self e
  heard := match e with
    | .link i e => if i < t.plane.links.length then (i, e) :: t.heard else t.heard
    | _ => t.heard
  demotedFor := match e with
    | .demote => t.plane.linkPeer.toList ++ t.demotedFor
    | _ => t.demotedFor

def run (es : List (Event P)) : Trial P := es.foldl (step impl self) start

/-- Whether the link's last ping came back. -/
def answered (heard : List (Nat × Heard)) (i : Nat) : Bool :=
  heard.foldr (fun x proven => if x.1 = i then x.2.after proven else proven) false

variable (t : Trial P)

/-- The current link is for the current peer and proven, and content was not demoted for that peer. -/
def Proven : Prop := ∃ i l, t.plane.link = some i ∧ t.plane.links[i]? = some l ∧ t.plane.linkPeer = some l.peer ∧
  l.closed = false ∧ answered t.heard i = true ∧ l.peer ∉ t.demotedFor

/-- A sender in the room, and a direct channel, are of a proven link; and no message is dropped. -/
structure Sound : Prop where
  contentSend : t.plane.contentSend = true → t.Proven
  direct : t.plane.direct.isSome = true → t.Proven
  sent : t.plane.send ≠ .dropped

/-- A pong that would install the sender is the current link's, or that is proven, and the peer was never demoted. -/
def Clear : Event P → Prop
  | .link i .pong => ∀ l, t.plane.links[i]? = some l → l.ready = false → t.plane.demoted = false →
      t.plane.linkPeer = some l.peer → (t.plane.link = some i ∨ t.plane.isReady = true) ∧ l.peer ∉ t.demotedFor
  | _ => True

end Trial

namespace Plane

variable {P : Type} [DecidableEq P] {impl : Implementation} {self : P} {p q : Plane P}

/-! ## What stays when links close -/

/-- The plane stays with its link and peer, and no sender is installed. -/
structure Keeps (p q : Plane P) : Prop where
  length : q.links.length = p.links.length
  link : q.link = p.link
  linkPeer : q.linkPeer = p.linkPeer
  demoted : q.demoted = p.demoted
  contentSend : q.contentSend = true → p.contentSend = true

omit [DecidableEq P] in
theorem Keeps.refl (p : Plane P) : Keeps p p := ⟨rfl, rfl, rfl, rfl, id⟩

omit [DecidableEq P] in
theorem Keeps.trans {o : Plane P} (h : Keeps o p) (h' : Keeps p q) : Keeps o q :=
  ⟨h'.length.trans h.length, h'.link.trans h.link, h'.linkPeer.trans h.linkPeer, h'.demoted.trans h.demoted,
    h.contentSend ∘ h'.contentSend⟩

omit [DecidableEq P] in
theorem keeps_setLink (i : Nat) (l : Link P) : Keeps p (p.setLink i l) := ⟨List.length_set, rfl, rfl, rfl, id⟩

theorem keeps_onClose (peer : P) : Keeps p (p.onClose peer) := by
  unfold onClose
  split
  · exact ⟨rfl, rfl, rfl, rfl, fun h => by cases h⟩
  · exact .refl p

theorem links_onClose (peer : P) : (p.onClose peer).links = p.links := by
  unfold onClose
  split <;> rfl

theorem keeps_lapse (i : Nat) (l : Link P) : Keeps p (p.lapse i l) := by
  unfold lapse
  split
  · exact (keeps_setLink i _).trans (keeps_onClose _)
  · exact .refl p

theorem keeps_closeLink (i : Nat) : Keeps p (p.closeLink impl i) := by
  unfold closeLink
  split
  · exact .refl p
  case h_2 l _ =>
    cases impl with
    | browser => exact keeps_setLink i _
    | desktop => exact (keeps_setLink i _).trans (keeps_lapse i _)

theorem keeps_closeCurrent : Keeps p (p.closeCurrent impl) := by
  unfold closeCurrent
  cases p.link with
  | none => exact .refl p
  | some i => exact keeps_closeLink i

/-! ## A new link -/

/-- The last link is new, and the current one; no sender is installed. -/
structure Fresh (p : Plane P) (peer : P) (n : Nat) : Prop where
  length : p.links.length = n + 1
  link : p.link = some n
  made : p.links[n]? = some ⟨peer, false, false⟩
  linkPeer : p.linkPeer = some peer
  contentSend : p.contentSend = false

theorem fresh_connect [LT P] [DecidableLT P] {peer : P} (hpeer : p.linkPeer = some peer) (hoff : p.contentSend = false) :
    (p.connect impl self peer).Fresh peer p.links.length := by
  have hkeeps : Keeps p ({ p with attemptTimer := none, attempt := p.attempt + 1 }.closeCurrent impl) := by
    refine .trans ?_ keeps_closeCurrent
    exact ⟨rfl, rfl, rfl, rfl, id⟩
  have hoff' : ({ p with attemptTimer := none, attempt := p.attempt + 1 }.closeCurrent impl).contentSend = false := by
    rw [← Bool.not_eq_true]
    intro hon
    rw [hkeeps.contentSend hon] at hoff
    cases hoff
  unfold connect
  dsimp only
  split
  all_goals
    refine ⟨?_, ?_, ?_, hkeeps.linkPeer.trans hpeer, hoff'⟩
    · simp [hkeeps.length]
    · simp [hkeeps.length]
    · simp [← hkeeps.length]

variable (impl self) in
theorem onPeer_cases [LT P] [DecidableLT P] (hoff : p.link = none → p.contentSend = false) (peer : P) :
    p.onPeer impl self peer = p ∨ (p.onPeer impl self peer).Fresh peer p.links.length := by
  unfold onPeer
  split
  · exact .inl rfl
  · right
    dsimp only
    split
    · have hkeeps : Keeps p ({ p with attempt := 0 }.closeCurrent impl) := by
        refine .trans ?_ keeps_closeCurrent
        exact ⟨rfl, rfl, rfl, rfl, id⟩
      rw [← hkeeps.length]
      exact fresh_connect rfl rfl
    case isFalse hlink =>
      exact fresh_connect rfl (hoff (by simpa using hlink))

variable (impl self) in
theorem onSignal_cases [LT P] [DecidableLT P] (hoff : p.link = none → p.contentSend = false) (sender to' : P) :
    p.onSignal impl self sender to' = p ∨ (p.onSignal impl self sender to').Fresh sender p.links.length := by
  unfold onSignal
  split
  · exact .inl rfl
  · split
    · exact onPeer_cases impl self hoff sender
    · exact .inl rfl

variable (impl self) in
theorem timeout_cases [LT P] [DecidableLT P] (hoff : p.isReady = false → p.contentSend = false) :
    p.timeout impl self = { p with attemptTimer := none } ∨
      ∃ peer, (p.timeout impl self).Fresh peer p.links.length := by
  cases htimer : p.attemptTimer with
  | none =>
      left
      simp only [timeout, htimer]
      cases p
      simp only at htimer
      rw [htimer]
  | some peer =>
      simp only [timeout, htimer]
      split
      · exact .inl rfl
      case isFalse hcond =>
        rw [not_or, not_or, Decidable.not_not] at hcond
        obtain ⟨-, hpeer, hready⟩ := hcond
        exact .inr ⟨peer, fresh_connect hpeer (hoff (Bool.not_eq_true _ ▸ hready))⟩

/-! ## What a link hears -/

theorem hear_none {i : Nat} (h : p.links[i]? = none) (e : Heard) : p.hear i e = p := by
  unfold hear
  rw [h]

theorem hear_some {i : Nat} {l : Link P} (h : p.links[i]? = some l) (e : Heard) :
    (p.hear i e).links = p.links.set i { l with ready := e.after l.ready } ∧ (p.hear i e).link = p.link ∧
      (p.hear i e).linkPeer = p.linkPeer ∧ (p.hear i e).demoted = p.demoted := by
  have hsame : ∀ r, l.ready = r → p.links = p.links.set i { l with ready := r } := by
    rintro r rfl
    obtain ⟨hi, rfl⟩ := List.getElem?_eq_some_iff.mp h
    exact (List.set_getElem_self hi).symm
  have hlapse : (p.lapse i l).links = p.links.set i { l with ready := false } := by
    unfold lapse
    split
    · exact links_onClose _
    case isFalse hr => exact hsame false (by simpa using hr)
  have hkeeps := keeps_lapse (p := p) i l
  unfold hear
  rw [h]
  cases e with
  | open' => exact ⟨hsame _ rfl, rfl, rfl, rfl⟩
  | pong =>
      dsimp only
      split
      case isTrue hr => exact ⟨hsame _ hr, rfl, rfl, rfl⟩
      · unfold onOpen
        dsimp only
        split <;> exact ⟨rfl, rfl, rfl, rfl⟩
  | close => exact ⟨hlapse, hkeeps.link, hkeeps.linkPeer, hkeeps.demoted⟩
  | state conn =>
      dsimp only [Heard.after]
      split
      case isTrue hends =>
        rw [hends, Bool.not_true, Bool.and_false]
        exact ⟨hlapse, hkeeps.link, hkeeps.linkPeer, hkeeps.demoted⟩
      case isFalse hends =>
        rw [Bool.not_eq_true] at hends
        rw [hends, Bool.not_false, Bool.and_true]
        exact ⟨hsame _ rfl, rfl, rfl, rfl⟩

/-- A link that stops being ready takes the sender of its peer with it. -/
theorem off_lapse {i : Nat} {l : Link P} (hr : l.ready = true) (hpeer : p.linkPeer = some l.peer) :
    (p.lapse i l).contentSend = false := by
  unfold lapse
  rw [if_pos hr, onClose, if_pos (by exact hpeer)]

theorem contentSend_hear {i : Nat} {l : Link P} (h : p.links[i]? = some l) {e : Heard}
    (hon : (p.hear i e).contentSend = true) :
    (p.contentSend = true ∧ (l.ready = true → p.linkPeer = some l.peer → e.after l.ready = true)) ∨
      (e = .pong ∧ l.ready = false ∧ p.demoted = false ∧ p.linkPeer = some l.peer) := by
  have hlapse : (p.lapse i l).contentSend = true →
      p.contentSend = true ∧ (l.ready = true → p.linkPeer = some l.peer → False) := by
    intro hon
    refine ⟨(keeps_lapse i l).contentSend hon, fun hr hpeer => ?_⟩
    rw [off_lapse hr hpeer] at hon
    cases hon
  unfold hear at hon
  rw [h] at hon
  cases e with
  | open' => exact .inl ⟨hon, fun hr _ => hr⟩
  | pong =>
      dsimp only at hon
      split at hon
      case isTrue hr => exact .inl ⟨hon, fun _ _ => rfl⟩
      case isFalse hr =>
        unfold onOpen at hon
        dsimp only at hon
        split at hon
        case isTrue hcond =>
          simp only [Bool.and_eq_true, Bool.not_eq_true', decide_eq_true_eq] at hcond
          exact .inr ⟨rfl, by simpa using hr, hcond.1, hcond.2⟩
        · exact .inl ⟨hon, fun _ _ => rfl⟩
  | close => exact .inl ((hlapse hon).imp_right fun hnot hr hpeer => (hnot hr hpeer).elim)
  | state conn =>
      dsimp only at hon
      split at hon
      · exact .inl ((hlapse hon).imp_right fun hnot hr hpeer => (hnot hr hpeer).elim)
      case isFalse hends => exact .inl ⟨hon, fun hr _ => by simp [Heard.after, hr, hends]⟩

theorem contentSend_pong {i : Nat} {l : Link P} (h : p.links[i]? = some l) (hr : l.ready = false)
    (hdemoted : p.demoted = false) (hpeer : p.linkPeer = some l.peer) : (p.hear i .pong).contentSend = true := by
  unfold hear
  rw [h]
  simp [hr, onOpen, setLink, hdemoted, hpeer]

omit [DecidableEq P] in
theorem isReady_eq {i : Nat} {l : Link P} (hlink : p.link = some i) (hl : p.links[i]? = some l) :
    p.isReady = l.ready := by
  rw [isReady, current, hlink, Option.bind_some, hl]
  rfl

omit [DecidableEq P] in
theorem isReady_none (hlink : p.link = none) : p.isReady = false := by
  rw [isReady, current, hlink]
  rfl

end Plane

namespace Trial

variable {P : Type} [DecidableEq P] {impl : Implementation} {self : P} {t : Trial P}

theorem answered_self (heard : List (Nat × Heard)) (i : Nat) (e : Heard) :
    answered ((i, e) :: heard) i = e.after (answered heard i) := if_pos rfl

theorem answered_other (heard : List (Nat × Heard)) {i j : Nat} (e : Heard) (h : i ≠ j) :
    answered ((i, e) :: heard) j = answered heard j := if_neg h

theorem answered_new {heard : List (Nat × Heard)} {n : Nat} (h : ∀ x ∈ heard, x.1 < n) : answered heard n = false := by
  induction heard with
  | nil => rfl
  | cons x heard ih =>
      rw [List.forall_mem_cons] at h
      rw [show x = (x.1, x.2) from rfl, answered_other _ _ (Nat.ne_of_lt h.1), ih h.2]

/-! ## The invariant -/

/-- The current link is the current peer's and ready when it is proven; a sender is installed only over a ready link,
and content was not demoted for a peer whose link is ready, unless it is now. -/
structure Inv (t : Trial P) : Prop where
  bound : ∀ x ∈ t.heard, x.1 < t.plane.links.length
  current : ∀ i, t.plane.link = some i → ∃ l, t.plane.links[i]? = some l ∧ t.plane.linkPeer = some l.peer ∧
    l.closed = false ∧ l.ready = answered t.heard i
  peerless : t.plane.link = none → t.plane.linkPeer = none
  installed : t.plane.contentSend = true → t.plane.isReady = true ∧ t.plane.demoted = false
  spared : t.plane.isReady = true → t.plane.demoted = false → ∀ peer, t.plane.linkPeer = some peer → peer ∉ t.demotedFor

namespace Inv

omit [DecidableEq P] in
theorem start : (start : Trial P).Inv where
  bound x hx := absurd hx List.not_mem_nil
  current i hi := by cases hi
  peerless _ := rfl
  installed h := by cases h
  spared h := by cases h

omit [DecidableEq P] in
theorem off (h : t.Inv) (hr : t.plane.isReady = false) : t.plane.contentSend = false := by
  rw [← Bool.not_eq_true]
  intro hon
  rw [(h.installed hon).1] at hr
  cases hr

omit [DecidableEq P] in
theorem ready (h : t.Inv) (hr : t.plane.isReady = true) : ∃ i l, t.plane.link = some i ∧ t.plane.links[i]? = some l ∧
    t.plane.linkPeer = some l.peer ∧ l.closed = false ∧ answered t.heard i = true ∧ l.ready = true := by
  cases hlink : t.plane.link with
  | none =>
      rw [Plane.isReady_none hlink] at hr
      cases hr
  | some i =>
      obtain ⟨l, hl, hpeer, hclosed, hready⟩ := h.current i hlink
      rw [Plane.isReady_eq hlink hl] at hr
      exact ⟨i, l, rfl, hl, hpeer, hclosed, hready ▸ hr, hr⟩

omit [DecidableEq P] in
theorem proven (h : t.Inv) (hr : t.plane.isReady = true) (hdemoted : t.plane.demoted = false) : t.Proven := by
  obtain ⟨i, l, hlink, hl, hpeer, hclosed, hans, -⟩ := h.ready hr
  exact ⟨i, l, hlink, hl, hpeer, hclosed, hans, h.spared hr hdemoted l.peer hpeer⟩

omit [DecidableEq P] in
theorem sound (h : t.Inv) : t.Sound where
  contentSend hon := h.proven (h.installed hon).1 (h.installed hon).2
  direct hdirect := by
    unfold Plane.direct at hdirect
    split at hdirect
    case isTrue hcond =>
      rw [Bool.and_eq_true, Bool.not_eq_true'] at hcond
      exact h.proven hcond.1 hcond.2
    · cases hdirect
  sent := by
    unfold Plane.send
    split
    case isTrue hon =>
      obtain ⟨i, l, hlink, hl, -, hclosed, -, hready⟩ := h.ready (h.installed hon).1
      have hcurrent : t.plane.current = some l := by rw [Plane.current, hlink, Option.bind_some, hl]
      rw [hlink, hcurrent]
      simp [hready, hclosed]
    · exact fun hdrop => by cases hdrop

omit [DecidableEq P] in
theorem fresh {peer : P} {n : Nat} (hbound : ∀ x ∈ t.heard, x.1 < n) (hf : t.plane.Fresh peer n) : t.Inv := by
  have hready : t.plane.isReady = false := Plane.isReady_eq hf.link hf.made
  refine ⟨fun x hx => ?_, fun i hi => ?_, fun hnone => ?_, fun hon => ?_, fun hr => ?_⟩
  · rw [hf.length]
    exact Nat.lt_succ_of_lt (hbound x hx)
  · obtain rfl := Option.some.inj (hf.link.symm.trans hi)
    exact ⟨_, hf.made, hf.linkPeer, rfl, (answered_new hbound).symm⟩
  · rw [hf.link] at hnone
    cases hnone
  · rw [hf.contentSend] at hon
    cases hon
  · rw [hready] at hr
    cases hr

theorem hear_current (h : t.Inv) {i : Nat} {l : Link P} (hl : t.plane.links[i]? = some l) (hcur : t.plane.link = some i)
    (e : Heard) : t.plane.linkPeer = some l.peer ∧ t.plane.isReady = l.ready ∧
      (t.plane.hear i e).isReady = e.after l.ready := by
  obtain ⟨hlinks, hlink, -, -⟩ := Plane.hear_some hl e
  obtain ⟨hi, -⟩ := List.getElem?_eq_some_iff.mp hl
  obtain ⟨l', hl', hpeer, -, -⟩ := h.current i hcur
  obtain rfl := Option.some.inj (hl.symm.trans hl')
  have hself : (t.plane.hear i e).links[i]? = some { l with ready := e.after l.ready } := by
    rw [hlinks, List.getElem?_set_self hi]
  exact ⟨hpeer, Plane.isReady_eq hcur hl, Plane.isReady_eq (hlink.trans hcur) hself⟩

/-- Whether the plane is ready changes only when the current link hears. -/
theorem hear_other (h : t.Inv) {i : Nat} {l : Link P} (hl : t.plane.links[i]? = some l) (hcur : t.plane.link ≠ some i)
    (e : Heard) : (t.plane.hear i e).isReady = t.plane.isReady := by
  obtain ⟨hlinks, hlink, -, -⟩ := Plane.hear_some hl e
  cases hj : t.plane.link with
  | none => rw [Plane.isReady_none hj, Plane.isReady_none (hlink.trans hj)]
  | some j =>
      obtain ⟨l', hl', -⟩ := h.current j hj
      have hne : i ≠ j := fun heq => hcur (heq ▸ hj)
      have hsame : (t.plane.hear i e).links[j]? = some l' := by rw [hlinks, List.getElem?_set_ne hne, hl']
      rw [Plane.isReady_eq hj hl', Plane.isReady_eq (hlink.trans hj) hsame]

section

variable (h : t.Inv) {i : Nat} {l : Link P} (hl : t.plane.links[i]? = some l) {e : Heard}
  (hclear : e = .pong → l.ready = false → t.plane.demoted = false → t.plane.linkPeer = some l.peer →
    (t.plane.link = some i ∨ t.plane.isReady = true) ∧ l.peer ∉ t.demotedFor)
include h hl hclear

theorem installed_hear (hon : (t.plane.hear i e).contentSend = true) :
    (t.plane.hear i e).isReady = true ∧ t.plane.demoted = false := by
  rcases Plane.contentSend_hear hl hon with ⟨hbefore, hlapse⟩ | ⟨rfl, hr, hd, hp⟩
  · obtain ⟨hr, hd⟩ := h.installed hbefore
    refine ⟨?_, hd⟩
    by_cases hcur : t.plane.link = some i
    · obtain ⟨hpeer, hready, hafter⟩ := h.hear_current hl hcur e
      rw [hafter]
      exact hlapse (hready.symm.trans hr) hpeer
    · rw [h.hear_other hl hcur, hr]
  · refine ⟨?_, hd⟩
    -- the pong installs the sender over the current link, whichever link it came on
    by_cases hcur : t.plane.link = some i
    · exact (h.hear_current hl hcur .pong).2.2
    · rw [h.hear_other hl hcur]
      exact (hclear rfl hr hd hp).1.resolve_left hcur

theorem spared_hear (hr : (t.plane.hear i e).isReady = true) (hd : t.plane.demoted = false) {peer : P}
    (hp : t.plane.linkPeer = some peer) : peer ∉ t.demotedFor := by
  by_cases hcur : t.plane.link = some i
  · obtain ⟨hpeer, hready, hafter⟩ := h.hear_current hl hcur e
    rw [hafter] at hr
    cases hbefore : l.ready with
    | true => exact h.spared (hready.trans hbefore) hd peer hp
    | false =>
        rw [hbefore] at hr
        cases e with
        | pong =>
            obtain rfl := Option.some.inj (hpeer.symm.trans hp)
            exact (hclear rfl hbefore hd hpeer).2
        | _ => cases hr
  · exact h.spared ((h.hear_other hl hcur e).symm.trans hr) hd peer hp

theorem hear : Inv (⟨t.plane.hear i e, (i, e) :: t.heard, t.demotedFor⟩ : Trial P) := by
  obtain ⟨hlinks, hlink, hpeer, hdemoted⟩ := Plane.hear_some hl e
  obtain ⟨hi, -⟩ := List.getElem?_eq_some_iff.mp hl
  refine ⟨fun x hx => ?_, fun j hj => ?_, fun hnone => ?_, fun hon => ?_, fun hr hd peer hp => ?_⟩
  · rw [hlinks, List.length_set]
    rcases List.mem_cons.mp hx with rfl | hx
    · exact hi
    · exact h.bound x hx
  · obtain ⟨l', hl', hp', hclosed, hans⟩ := h.current j (hlink.symm.trans hj)
    rw [hpeer, hlinks]
    by_cases hij : i = j
    · subst hij
      obtain rfl := Option.some.inj (hl.symm.trans hl')
      exact ⟨_, List.getElem?_set_self hi, hp', hclosed, by rw [answered_self, hans]⟩
    · exact ⟨l', (List.getElem?_set_ne hij).trans hl', hp', hclosed, by rw [answered_other _ _ hij, hans]⟩
  · rw [hpeer]
    exact h.peerless (hlink.symm.trans hnone)
  · rw [hdemoted]
    exact h.installed_hear hl hclear hon
  · rw [hdemoted] at hd
    rw [hpeer] at hp
    exact h.spared_hear hl hclear hr hd hp

end

end Inv

variable [LT P] [DecidableLT P]

theorem Inv.step (h : t.Inv) (e : Event P) (hclear : t.Clear e) : (t.step impl self e).Inv := by
  have hoff : t.plane.link = none → t.plane.contentSend = false := fun hlink => h.off (Plane.isReady_none hlink)
  cases e with
  | peer peer =>
      rcases Plane.onPeer_cases impl self hoff peer with heq | hf
      · exact (congrArg (fun p => Trial.Inv ⟨p, t.heard, t.demotedFor⟩) heq).mpr h
      · exact .fresh (t := t.step impl self (.peer peer)) h.bound hf
  | signal sender to' =>
      rcases Plane.onSignal_cases impl self hoff sender to' with heq | hf
      · exact (congrArg (fun p => Trial.Inv ⟨p, t.heard, t.demotedFor⟩) heq).mpr h
      · exact .fresh (t := t.step impl self (.signal sender to')) h.bound hf
  | timeout =>
      rcases Plane.timeout_cases impl self h.off with heq | ⟨peer, hf⟩
      · refine (congrArg (fun p => Trial.Inv ⟨p, t.heard, t.demotedFor⟩) heq).mpr ?_
        exact ⟨h.bound, h.current, h.peerless, h.installed, h.spared⟩
      · exact .fresh (t := t.step impl self .timeout) h.bound hf
  | demote =>
      cases hd : t.plane.demoted with
      | true =>
          have heq : t.plane.demote = t.plane := if_pos hd
          refine (congrArg (fun p => Trial.Inv ⟨p, t.heard, t.plane.linkPeer.toList ++ t.demotedFor⟩) heq).mpr ?_
          refine ⟨h.bound, h.current, h.peerless, h.installed, fun _ hnot => ?_⟩
          rw [hd] at hnot
          cases hnot
      | false =>
          have heq : t.plane.demote = { t.plane with demoted := true, attemptTimer := none, contentSend := false } :=
            if_neg (by simp [hd])
          refine (congrArg (fun p => Trial.Inv ⟨p, t.heard, t.plane.linkPeer.toList ++ t.demotedFor⟩) heq).mpr ?_
          exact ⟨h.bound, h.current, h.peerless, fun hon => (by cases hon), fun _ hnot => (by cases hnot)⟩
  | stop =>
      have hkeeps : t.plane.Keeps ({ t.plane with attemptTimer := none }.closeCurrent impl) := by
        refine .trans ?_ Plane.keeps_closeCurrent
        exact ⟨rfl, rfl, rfl, rfl, id⟩
      refine ⟨fun x hx => Nat.lt_of_lt_of_eq (h.bound x hx) hkeeps.length.symm, fun i hi => ?_, fun _ => rfl, fun hon => ?_,
        fun _ _ peer hp => ?_⟩
      · cases hi
      · cases hon
      · cases hp
  | link i e =>
      cases hl : t.plane.links[i]? with
      | none =>
          have hlt : ¬ i < t.plane.links.length := Nat.not_lt.mpr (List.getElem?_eq_none_iff.mp hl)
          simp only [Trial.step, Plane.step, Plane.hear_none hl, if_neg hlt]
          exact h
      | some l =>
          obtain ⟨hi, -⟩ := List.getElem?_eq_some_iff.mp hl
          simp only [Trial.step, Plane.step, if_pos hi]
          refine h.hear hl ?_
          rintro rfl
          exact hclear l hl

/-- A pong that is not clear installs a sender over a link that is not proven, or for a peer that was demoted. -/
theorem Inv.clear (h : t.Inv) (e : Event P) (hs : (t.step impl self e).Sound) : t.Clear e := by
  cases e with
  | link i e =>
      cases e with
      | pong =>
          intro l hl hr hdemoted hpeer
          obtain ⟨hi, -⟩ := List.getElem?_eq_some_iff.mp hl
          obtain ⟨-, hlink, hpeer', -⟩ := Plane.hear_some hl .pong
          have hon : (t.step impl self (.link i .pong)).plane.contentSend = true :=
            Plane.contentSend_pong hl hr hdemoted hpeer
          obtain ⟨j, l', hj, -, hp', -, hans, hnot⟩ := hs.contentSend hon
          have hj' : t.plane.link = some j := hlink.symm.trans hj
          have hsame : l'.peer = l.peer := Option.some.inj (hp'.symm.trans (hpeer'.trans hpeer))
          refine ⟨?_, hsame ▸ hnot⟩
          by_cases hij : i = j
          · exact .inl (hij ▸ hj')
          · right
            obtain ⟨l'', hl'', -, -, hready⟩ := h.current j hj'
            simp only [Trial.step, if_pos hi] at hans
            rw [answered_other _ _ hij, ← hready] at hans
            exact (Plane.isReady_eq hj' hl'').trans hans
      | _ => trivial
  | _ => trivial

end Trial

/-- Along a run every sender in the room and every direct channel is of a proven link of the current peer, which content
was not demoted for, exactly when no pong installs it over another link, or for a peer that was demoted. -/
theorem content_proven {P : Type} [DecidableEq P] [LT P] [DecidableLT P] (impl : Implementation) (self : P)
    (es : List (Event P)) : (∀ ds, ds <+: es → (Trial.run impl self ds).Sound) ↔
      Admits (Trial.step impl self) Trial.Clear .start es :=
  Admits.iff_good (I := Trial.Inv) (fun _ h => h.sound) (fun _ e h hok => h.step e hok) (fun _ e h hs => h.clear e hs)
    .start es

/-- The attempt timer runs out while the old link's pong is on its way. -/
def lateEvents : List (Event Nat) := [.peer 1, .link 0 .open', .timeout, .link 0 .pong]

/-- Content is demoted, another peer signals, and the first is back. -/
def backEvents : List (Event Nat) := [.peer 1, .demote, .signal 2 0, .peer 1, .link 2 .open', .link 2 .pong]

/-- An old link installs the sender over a new link, that drops what it is handed; a demoted peer has a second turn. -/
theorem content_unproven :
    (¬ ∀ es, (Trial.run .desktop 0 es).plane.contentSend = true → (Trial.run .desktop 0 es).Proven) ∧
      (Trial.run .desktop 0 lateEvents).plane.send = .dropped ∧
      ¬ ∀ es, (Trial.run .browser 0 es).plane.direct.isSome = true → (Trial.run .browser 0 es).Proven := by
  refine ⟨fun h => ?_, by decide, fun h => ?_⟩
  · obtain ⟨i, l, hlink, -, -, -, hans, -⟩ := h lateEvents (by decide)
    have hcur : (Trial.run .desktop 0 lateEvents).plane.link = some 1 := by decide
    obtain rfl := Option.some.inj (hcur.symm.trans hlink)
    exact absurd hans (by decide)
  · obtain ⟨i, l, -, -, hpeer, -, -, hnot⟩ := h backEvents (by decide)
    have hcur : (Trial.run .browser 0 backEvents).plane.linkPeer = some 1 := by decide
    have hin : 1 ∈ (Trial.run .browser 0 backEvents).demotedFor := by decide
    rw [← Option.some.inj (hcur.symm.trans hpeer)] at hnot
    exact hnot hin

end EncedoChat.Direct
