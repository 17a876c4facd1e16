import EncedoChat.Relay.Node
import EncedoChat.Lib.Run

/-!
# Which node to be on

The choice by load of `lib/nodepick.ts`. An address is anything that has a node's key and may name a peer.
-/

namespace EncedoChat.Nodes

open Relay (Reading)

def MOVE_GAP : Int := 20

def HOT : Nat := 85

def COOL : Nat := 60

def HOT_FOR_MS : Nat := 60000

def REBALANCE_P : Rat := 1 / 5

def LOAD_STALE_MS : Nat := 90000

/-- What is read off an address. -/
structure Naming (A π : Type) where
  /-- `nodeKeyOf`, or `nodeKey` -/
  keyOf : A → String
  /-- the PeerId at its end -/
  peerOf : A → Option π

section

variable {A π : Type} [DecidableEq π] (N : Naming A π)

/-- Is this reading believed? -/
def loadFromItsNode (r : Reading) (sender : Option π) (candidates : List A) (now : Nat) : Bool :=
  match sender with
  | none => false
  | some p =>
    if r.stamp > now + 30000 then false
    else (candidates.find? fun a => N.keyOf a = r.node).elim false fun a => N.peerOf a = some p

end

def fresh (r : Reading) (now : Nat) : Bool :=
  decide (now - r.stamp ≤ LOAD_STALE_MS) && decide (r.stamp ≤ now + 30000)

/-- Up to the key whose weight the roll falls into. -/
def drawFrom (total roll acc : Rat) : List (String × Rat) → Option String
  | [] => none
  | (k, w) :: rest =>
    let acc := acc + if total = 0 then 1 else w
    if roll < acc then some k else drawFrom total roll acc rest

/-- The second choice, of the first key and the others. -/
def draw (first : String) (others : List String) (weights : String → Option Rat) (roll : Rat) : String :=
  let ws := (first :: others).map fun k => (k, let w := (weights k).getD 1; if w < 0 then 0 else w)
  let total := ws.foldl (fun a w => a + w.2) (0 : Rat)
  let roll := if roll < 0 then 0 else if 999999 / 1000000 < roll then 999999 / 1000000 else roll
  let roll := roll * if total = 0 then (ws.length : Rat) else total
  (drawFrom total roll 0 ws).getD first

variable (current : String) (candidates : List String) (loads : OrdMap String Reading)

def loginChoice (weights : String → Option Rat) (roll : Rat) (now : Nat) : Option String :=
  match candidates.filter (· ≠ current) with
  | [] => none
  | first :: others =>
    match loads.get current with
    | none => none
    | some mine =>
      if fresh mine now then
        let other := draw first others weights roll
        match loads.get other with
        | none => none
        | some theirs =>
          if fresh theirs now ∧ MOVE_GAP ≤ (mine.pct : Int) - theirs.pct then some other else none
      else none

/-- The lighter of the best so far and a candidate that is fresh and cool. -/
def lighter (now : Nat) (best : Option (String × Reading)) (k : String) : Option (String × Reading) :=
  if k = current then best
  else
    match loads.get k with
    | none => best
    | some r =>
      if fresh r now ∧ r.pct < COOL then
        if best.elim true (fun b => r.pct < b.2.pct) then some (k, r) else best
      else best

def rebalanceChoice (hotSince : Option Nat) (roll : Rat) (now : Nat) : Option String :=
  match loads.get current, hotSince with
  | some mine, some since =>
    if fresh mine now ∧ HOT ≤ mine.pct ∧ HOT_FOR_MS ≤ now - since ∧ roll < REBALANCE_P then
      (candidates.foldl (lighter current loads now) none).map Prod.fst
    else none
  | _, _ => none

/-! ## What is chosen -/

variable {current candidates loads}

/-- What is best is a candidate's usable reading, and cool. -/
theorem lighter_best {now : Nat} {ks : List String} {k : String} {r : Reading} {best : Option (String × Reading)}
    (h : ks.foldl (lighter current loads now) best = some (k, r)) :
    best = some (k, r) ∨ (k ∈ ks ∧ loads.get k = some r ∧ fresh r now = true ∧ r.pct < COOL) := by
  induction ks generalizing best with
  | nil => exact .inl h
  | cons k' ks ih =>
      rw [List.foldl_cons] at h
      rcases ih h with hbest | ⟨hin, hrest⟩
      · rw [lighter] at hbest
        split at hbest
        · exact .inl hbest
        · split at hbest
          · exact .inl hbest
          case h_2 r' hr' =>
            split at hbest
            case isTrue hcool =>
              split at hbest
              · cases hbest
                exact .inr ⟨List.mem_cons_self .., hr', hcool⟩
              · exact .inl hbest
            · exact .inl hbest
      · exact .inr ⟨List.mem_cons_of_mem _ hin, hrest⟩

/-- A choice is made of a node that is hot, for long enough, and falls on a candidate that is cool. -/
theorem rebalanceChoice_spec {hotSince : Option Nat} {roll : Rat} {now : Nat} {k : String}
    (h : rebalanceChoice current candidates loads hotSince roll now = some k) :
    (∃ mine, loads.get current = some mine ∧ fresh mine now = true ∧ HOT ≤ mine.pct) ∧
      (∃ since, hotSince = some since ∧ HOT_FOR_MS ≤ now - since) ∧
      k ∈ candidates ∧ ∃ r, loads.get k = some r ∧ fresh r now = true ∧ r.pct < COOL := by
  unfold rebalanceChoice at h
  split at h
  case h_1 mine since hmine =>
    split at h
    case isTrue hcond =>
      obtain ⟨hfresh, hhot, hlong, -⟩ := hcond
      obtain ⟨⟨k', r⟩, hbest, rfl⟩ := Option.map_eq_some_iff.mp h
      rcases lighter_best hbest with hnone | ⟨hin, hget, hr⟩
      · cases hnone
      · exact ⟨⟨mine, hmine, hfresh, hhot⟩, ⟨since, rfl, hlong⟩, hin, r, hget, hr⟩
    · cases h
  · cases h

end EncedoChat.Nodes

/-!
# Moves that load drives

The candidates, the re-dials and the load-aware choice of `startSession` in `lib/core.ts`, over a clock that does not go
back. A session starts on one of its relays, which the first dial has reached.
-/

namespace EncedoChat.Nodes

open Relay (Reading decodeLoad)

def MOVE_EVERY : Nat := 10 * 60000

/-- What a session with `loadBalance` is given. -/
structure Config (A π : Type) extends Naming A π where
  weights : String → Option Rat
  /-- the JSON of a frame -/
  parse : Bytes → Option Json

structure Session (A : Type) where
  candidates : List A
  activeRelay : A
  redialing : Bool
  /-- the candidates that a dial under way tries -/
  sweep : List A
  closed : Bool
  loads : OrdMap String Reading
  hotSince : Option Nat
  lastMove : Nat
  /-- the decision at login is still to come -/
  login : Bool
  now : Nat

inductive Event (A π : Type) where
  | wait (ms : Nat)
  /-- a frame of the load topic -/
  | frame (sender : Option π) (data : Bytes)
  | login (roll : Rat)
  /-- `lbTimer` -/
  | check (roll : Rat)
  /-- the connection is lost, or given up -/
  | reconnect
  /-- `redial` reads the candidates -/
  | dial
  /-- a dial connects -/
  | dialed (addr : A)
  /-- the connection is there without a dial -/
  | connected
  | setRelays (list : List A)
  | close

namespace Session

variable {A π : Type} [DecidableEq A] [DecidableEq π] (C : Config A π) (s : Session A)

/-- A session whose first dial reached one of its relays. -/
def start (relays : List A) (i : Fin relays.length) (now : Nat) : Session A where
  candidates := relays
  activeRelay := relays[i]
  redialing := false
  sweep := []
  closed := false
  loads := .empty
  hotSince := none
  lastMove := 0
  login := true
  now := now

def mine : Option Reading := s.loads.get (C.keyOf s.activeRelay)

def keys : List String := s.candidates.map C.keyOf

def reconnect : Session A := if s.redialing || s.closed then s else { s with redialing := true, sweep := [] }

/-- `moveTo`, and the address that it moves to. -/
def moveTo (key : Option String) : Session A × Option A :=
  match key.bind fun k => s.candidates.find? fun a => C.keyOf a = k with
  | none => (s, none)
  | some addr =>
    if addr = s.activeRelay ∨ s.closed then (s, none)
    else
      (({ s with lastMove := s.now, candidates := addr :: s.candidates.filter (· ≠ addr) } : Session A).reconnect, some addr)

def frame (sender : Option π) (data : Bytes) : Session A :=
  match decodeLoad C.parse data with
  | none => s
  | some r =>
    if loadFromItsNode C.toNaming r sender s.candidates s.now then { s with loads := s.loads.set r.node r } else s

/-- Since when the node has been hot, at a check. -/
def streak : Option Nat :=
  match s.mine C with
  | none => none
  | some r => if s.now - r.stamp ≤ LOAD_STALE_MS ∧ HOT ≤ r.pct then some (s.hotSince.getD s.now) else none

/-- The login decision; the session waits three seconds for readings, and no longer. -/
def atLogin (roll : Rat) : Session A × Option A :=
  if s.login then
    let key := if s.closed then none
      else loginChoice (C.keyOf s.activeRelay) (s.keys C) s.loads C.weights roll s.now
    ({ s with login := false } : Session A).moveTo C key
  else (s, none)

/-- A check; the first comes twenty seconds after the start, when login is decided. -/
def check (roll : Rat) : Session A × Option A :=
  if s.login || s.closed || s.redialing then (s, none)
  else
    let s : Session A := { s with hotSince := s.streak C }
    if s.now - s.lastMove < MOVE_EVERY then (s, none)
    else s.moveTo C (rebalanceChoice (C.keyOf s.activeRelay) (s.keys C) s.loads s.hotSince roll s.now)

/-- A dial that connects to the address is under way. -/
def connects (addr : A) : Bool := s.redialing && addr ∈ s.sweep

def setRelays (list : List A) : Session A :=
  if list = [] then s
  else
    let s := { s with candidates := list }
    if s.activeRelay ∈ list then s else s.reconnect

/-- An event, and the address of the move that it makes. -/
def step : Event A π → Session A × Option A
  | .wait ms => ({ s with now := s.now + ms }, none)
  | .frame sender data => (s.frame C sender data, none)
  | .login roll => s.atLogin C roll
  | .check roll => s.check C roll
  | .reconnect => (s.reconnect, none)
  | .dial => (if s.redialing then { s with sweep := s.candidates } else s, none)
  | .dialed addr => (if s.connects addr then { s with activeRelay := addr, redialing := false, sweep := [] } else s, none)
  | .connected => ({ s with redialing := false, sweep := [] }, none)
  | .setRelays list => (s.setRelays list, none)
  | .close => ({ s with closed := true }, none)

end Session

/-! ## What is said of moves -/

/-- A check: when, on what node, and the reading that it saw. -/
structure Check (A : Type) where
  time : Nat
  relay : A
  reading : Option Reading

structure Move (A : Type) where
  time : Nat
  login : Bool
  /-- the node that the session was on, and that it moves to -/
  relay : A
  target : A
  candidates : List A
  /-- the reading of the target -/
  reading : Option Reading
  /-- the checks up to the move, the last first -/
  checks : List (Check A)

/-- A session, the frames that it heard, the addresses that it was ever given, when its node last changed, its checks and
its moves, the last first. -/
structure Trial (A π : Type) where
  session : Session A
  heard : List (π × Bytes)
  listed : List A
  since : Nat
  checks : List (Check A)
  moves : List (Move A)

namespace Trial

variable {A π : Type} [DecidableEq A] [DecidableEq π] (C : Config A π)

def start (relays : List A) (i : Fin relays.length) (now : Nat) : Trial A π :=
  ⟨.start relays i now, [], relays, now, [], []⟩

variable (t : Trial A π)

def checksAfter : Event A π → List (Check A)
  | .check _ =>
    if t.session.login || t.session.closed || t.session.redialing then t.checks
    else ⟨t.session.now, t.session.activeRelay, t.session.mine C⟩ :: t.checks
  | _ => t.checks

def movesAfter (e : Event A π) : List (Move A) :=
  match (t.session.step C e).2 with
  | none => t.moves
  | some addr =>
    { time := t.session.now, login := t.session.login, relay := t.session.activeRelay, target := addr
      candidates := t.session.candidates, reading := t.session.loads.get (C.keyOf addr)
      checks := t.checksAfter C e } :: t.moves

def step (e : Event A π) : Trial A π where
  session := (t.session.step C e).1
  heard := match e with
    | .frame (some p) data => (p, data) :: t.heard
    | _ => t.heard
  listed := match e with
    | .setRelays list => t.listed ++ list
    | _ => t.listed
  since := if (t.session.step C e).1.activeRelay = t.session.activeRelay then t.since else t.session.now
  checks := t.checksAfter C e
  moves := t.movesAfter C e

/-- The peer that the address names published the reading. -/
def Published (heard : List (π × Bytes)) (a : A) (r : Reading) : Prop :=
  ∃ p data, (p, data) ∈ heard ∧ decodeLoad C.parse data = some r ∧ C.peerOf a = some p

/-- The check saw its node hot, by a usable reading. -/
def Hot (heard : List (π × Bytes)) (c : Check A) : Prop :=
  ∃ r, c.reading = some r ∧ fresh r c.time = true ∧ HOT ≤ r.pct ∧ Published C heard c.relay r

/-- A move of a session that was hot for long enough, to a candidate that is cool. -/
structure Driven (heard : List (π × Bytes)) (m : Move A) : Prop where
  candidate : m.target ∈ m.candidates
  cool : ∃ r, m.reading = some r ∧ fresh r m.time = true ∧ r.pct < COOL ∧ Published C heard m.target r
  hot : ∀ c ∈ m.checks, m.time - c.time < HOT_FOR_MS → c.relay = m.relay ∧ Hot C heard c

/-- Every reading there is for a node was published by its peer; moves are ten minutes apart; and after login every move
is of a hot session to a cool node. -/
structure Disciplined : Prop where
  published : ∀ a ∈ t.session.activeRelay :: t.session.candidates, ∀ r, t.session.loads.get (C.keyOf a) = some r →
    Published C t.heard a r
  apart : t.moves.Pairwise fun m m' => m'.time + MOVE_EVERY ≤ m.time
  driven : ∀ m ∈ t.moves, m.login = false → Driven C t.heard m

/-- Addresses with one key name one peer. -/
def Stable (listed : List A) : Prop := ∀ a ∈ listed, ∀ b ∈ listed, C.keyOf a = C.keyOf b → C.peerOf a = C.peerOf b

/-- A list gives no node's key to another peer; and no dial lands on another node while a streak is running, unless there
will be no move for as long as a streak takes. -/
def Clear : Event A π → Prop
  | .setRelays list => Stable C (t.listed ++ list)
  | .dialed addr => t.session.connects addr = true → addr ≠ t.session.activeRelay →
      t.session.hotSince = none ∨ t.session.now + HOT_FOR_MS ≤ t.session.lastMove + MOVE_EVERY
  | _ => True

end Trial

namespace Session

variable {A π : Type} [DecidableEq A] [DecidableEq π] {C : Config A π} {s z : Session A}

/-! ## What a step leaves -/

/-- The node, the readings, the streak and the last move are what they were, and no address is new. -/
structure Calm (s z : Session A) : Prop where
  activeRelay : z.activeRelay = s.activeRelay
  loads : z.loads = s.loads
  hotSince : z.hotSince = s.hotSince
  lastMove : z.lastMove = s.lastMove
  login : z.login = s.login
  now : z.now = s.now
  candidates : z.candidates ⊆ s.candidates
  sweep : ∀ a ∈ z.sweep, a ∈ s.sweep ∨ a ∈ s.candidates

omit [DecidableEq A] in
theorem Calm.refl (s : Session A) : Calm s s :=
  ⟨rfl, rfl, rfl, rfl, rfl, rfl, List.Subset.refl _, fun _ ha => .inl ha⟩

omit [DecidableEq A] in
theorem calm_reconnect : Calm s s.reconnect := by
  unfold reconnect
  split
  · exact ⟨rfl, rfl, rfl, rfl, rfl, rfl, List.Subset.refl _, fun a ha => .inl ha⟩
  · exact ⟨rfl, rfl, rfl, rfl, rfl, rfl, List.Subset.refl _, fun a ha => absurd ha List.not_mem_nil⟩

omit [DecidableEq A] in
theorem calm_dial : Calm s (if s.redialing then { s with sweep := s.candidates } else s) := by
  split
  · exact ⟨rfl, rfl, rfl, rfl, rfl, rfl, List.Subset.refl _, fun a ha => .inr ha⟩
  · exact ⟨rfl, rfl, rfl, rfl, rfl, rfl, List.Subset.refl _, fun a ha => .inl ha⟩

omit [DecidableEq π] in
/-- A move is to the first candidate of its key. -/
theorem moveTo_cases (key : Option String) : s.moveTo C key = (s, none) ∨
    ∃ k addr z, key = some k ∧ addr ∈ s.candidates ∧ C.keyOf addr = k ∧ s.moveTo C key = (z, some addr) ∧
      Calm { s with lastMove := s.now } z := by
  unfold moveTo
  split
  · exact .inl rfl
  case h_2 addr haddr =>
    split
    · exact .inl rfl
    · right
      obtain ⟨k, rfl, hfind⟩ := Option.bind_eq_some_iff.mp haddr
      have hin := List.mem_of_find?_eq_some hfind
      refine ⟨k, addr, _, rfl, hin, by simpa using List.find?_some hfind, rfl, ?_⟩
      have hcalm := calm_reconnect (s := { s with lastMove := s.now, candidates := addr :: s.candidates.filter (· ≠ addr) })
      have hsub : addr :: s.candidates.filter (· ≠ addr) ⊆ s.candidates :=
        List.cons_subset.mpr ⟨hin, List.filter_sublist.subset⟩
      exact ⟨hcalm.activeRelay, hcalm.loads, hcalm.hotSince, hcalm.lastMove, hcalm.login, hcalm.now,
        List.Subset.trans hcalm.candidates hsub, fun a ha => (hcalm.sweep a ha).imp_right fun h => hsub h⟩

end Session

namespace Trial

variable {A π : Type} [DecidableEq A] [DecidableEq π] {C : Config A π} {t : Trial A π}

/-! ## The invariant -/

omit [DecidableEq A] [DecidableEq π] in
theorem Published.mono {heard heard' : List (π × Bytes)} (hsub : heard ⊆ heard') {a : A} {r : Reading}
    (h : Published C heard a r) : Published C heard' a r := by
  obtain ⟨p, data, hin, hr, hp⟩ := h
  exact ⟨p, data, hsub hin, hr, hp⟩

omit [DecidableEq A] [DecidableEq π] in
theorem Hot.mono {heard heard' : List (π × Bytes)} (hsub : heard ⊆ heard') {c : Check A} (h : Hot C heard c) :
    Hot C heard' c := by
  obtain ⟨r, hr, hfresh, hhot, hpub⟩ := h
  exact ⟨r, hr, hfresh, hhot, hpub.mono hsub⟩

omit [DecidableEq A] [DecidableEq π] in
theorem Driven.mono {heard heard' : List (π × Bytes)} (hsub : heard ⊆ heard') {m : Move A} (h : Driven C heard m) :
    Driven C heard' m := by
  obtain ⟨r, hr, hfresh, hcool, hpub⟩ := h.cool
  exact ⟨h.candidate, ⟨r, hr, hfresh, hcool, hpub.mono hsub⟩, fun c hc ht => (h.hot c hc ht).imp_right fun hh => hh.mono hsub⟩

variable (C) in
/-- The session dials addresses that it was given, and a reading is from the peer of one that has its key. -/
structure Known (s : Session A) (heard : List (π × Bytes)) (listed : List A) : Prop where
  names : Stable C listed
  relay : s.activeRelay ∈ listed
  candidates : s.candidates ⊆ listed
  sweep : s.sweep ⊆ listed
  readings : ∀ k r, s.loads.get k = some r →
    r.stamp ≤ s.now + 30000 ∧ ∃ a ∈ listed, C.keyOf a = k ∧ Published C heard a r

variable (C) in
/-- Since the streak began every check saw the node hot; since the node changed every check was on it; and it changed
before the streak began, or long before a move can be. -/
structure Timed (s : Session A) (heard : List (π × Bytes)) (since : Nat) (checks : List (Check A)) : Prop where
  moved : s.lastMove ≤ s.now
  changed : since ≤ s.now
  checked : ∀ c ∈ checks, c.time ≤ s.now
  began : ∀ h, s.hotSince = some h → h ≤ s.now
  hot : ∀ h, s.hotSince = some h → ∀ c ∈ checks, h < c.time → Hot C heard c
  stayed : ∀ c ∈ checks, since < c.time → c.relay = s.activeRelay
  tied : ∀ h, s.hotSince = some h → since ≤ h ∨ since + HOT_FOR_MS ≤ s.lastMove + MOVE_EVERY

variable (C) in
structure Logged (s : Session A) (heard : List (π × Bytes)) (moves : List (Move A)) : Prop where
  last : ∀ m ∈ moves, m.time ≤ s.lastMove
  login : s.login = true → moves = []
  apart : moves.Pairwise fun m m' => m'.time + MOVE_EVERY ≤ m.time
  driven : ∀ m ∈ moves, m.login = false → Driven C heard m

variable (C) in
structure Inv (t : Trial A π) : Prop where
  known : Known C t.session t.heard t.listed
  timed : Timed C t.session t.heard t.since t.checks
  logged : Logged C t.session t.heard t.moves

omit [DecidableEq A] [DecidableEq π] in
theorem Known.published {s : Session A} {heard : List (π × Bytes)} {listed : List A} (h : Known C s heard listed) {a : A}
    (ha : a ∈ listed) {r : Reading} (hr : s.loads.get (C.keyOf a) = some r) : Published C heard a r := by
  obtain ⟨-, b, hb, hkey, p, data, hin, hdec, hpeer⟩ := h.readings _ _ hr
  exact ⟨p, data, hin, hdec, (h.names a ha b hb hkey.symm).trans hpeer⟩

omit [DecidableEq A] [DecidableEq π] in
theorem Inv.disciplined (h : t.Inv C) : t.Disciplined C where
  published a ha r hr := by
    rcases List.mem_cons.mp ha with rfl | ha
    · exact h.known.published h.known.relay hr
    · exact h.known.published (h.known.candidates ha) hr
  apart := h.logged.apart
  driven := h.logged.driven

omit [DecidableEq A] [DecidableEq π] in
theorem Known.calm {s z : Session A} {heard : List (π × Bytes)} {listed : List A} (h : Known C s heard listed)
    (hc : Session.Calm s z) : Known C z heard listed where
  names := h.names
  relay := hc.activeRelay ▸ h.relay
  candidates := List.Subset.trans hc.candidates h.candidates
  sweep a ha := (hc.sweep a ha).elim (fun h' => h.sweep h') fun h' => h.candidates h'
  readings k r hr := by
    rw [hc.now]
    exact h.readings k r (hc.loads ▸ hr)

omit [DecidableEq A] [DecidableEq π] in
theorem Timed.calm {s z : Session A} {heard : List (π × Bytes)} {since : Nat} {checks : List (Check A)}
    (h : Timed C s heard since checks) (hc : Session.Calm s z) : Timed C z heard since checks := by
  obtain ⟨hrelay, -, hhot, hlast, -, hnow, -, -⟩ := hc
  constructor
  · rw [hlast, hnow]; exact h.moved
  · rw [hnow]; exact h.changed
  · rw [hnow]; exact h.checked
  · rw [hhot, hnow]; exact h.began
  · rw [hhot]; exact h.hot
  · rw [hrelay]; exact h.stayed
  · rw [hhot, hlast]; exact h.tied

omit [DecidableEq A] [DecidableEq π] in
theorem Logged.calm {s z : Session A} {heard : List (π × Bytes)} {moves : List (Move A)} (h : Logged C s heard moves)
    (hc : Session.Calm s z) : Logged C z heard moves where
  last := hc.lastMove ▸ h.last
  login := hc.login ▸ h.login
  apart := h.apart
  driven := h.driven

omit [DecidableEq A] [DecidableEq π] in
theorem Timed.later {s : Session A} {heard : List (π × Bytes)} {since : Nat} {checks : List (Check A)}
    (h : Timed C s heard since checks) : Timed C { s with lastMove := s.now } heard since checks where
  moved := Nat.le_refl _
  changed := h.changed
  checked := h.checked
  began := h.began
  hot := h.hot
  stayed := h.stayed
  tied k hk := (h.tied k hk).imp_right fun hle => Nat.le_trans hle (Nat.add_le_add_right h.moved _)

/-! ## Checks -/

omit [DecidableEq A] [DecidableEq π] in
theorem streak_some {s : Session A} {h : Nat} (hs : s.streak C = some h) : ∃ r, s.mine C = some r ∧
    s.now - r.stamp ≤ LOAD_STALE_MS ∧ HOT ≤ r.pct ∧ h = s.hotSince.getD s.now := by
  unfold Session.streak at hs
  split at hs
  · cases hs
  case h_2 r hr =>
    split at hs
    case isTrue hcond => exact ⟨r, hr, hcond.1, hcond.2, (Option.some.inj hs).symm⟩
    · cases hs

variable (C) in
/-- What a check sees. -/
def seen (s : Session A) : Check A := ⟨s.now, s.activeRelay, s.mine C⟩

omit [DecidableEq A] [DecidableEq π] in
theorem Known.hot_seen {s : Session A} {heard : List (π × Bytes)} {listed : List A} (hk : Known C s heard listed) {h : Nat}
    (hs : s.streak C = some h) : Hot C heard (seen C s) := by
  obtain ⟨r, hr, hstale, hhot, -⟩ := streak_some hs
  refine ⟨r, hr, ?_, hhot, hk.published hk.relay hr⟩
  rw [fresh, Bool.and_eq_true, decide_eq_true_eq, decide_eq_true_eq]
  exact ⟨hstale, (hk.readings _ _ hr).1⟩

omit [DecidableEq A] [DecidableEq π] in
theorem Timed.check {s : Session A} {heard : List (π × Bytes)} {listed : List A} {since : Nat} {checks : List (Check A)}
    (h : Timed C s heard since checks) (hk : Known C s heard listed) :
    Timed C { s with hotSince := s.streak C } heard since (seen C s :: checks) := by
  have hbegan : ∀ k, s.streak C = some k → (s.hotSince = none ∧ k = s.now) ∨ s.hotSince = some k := by
    intro k hs
    obtain ⟨r, -, -, -, rfl⟩ := streak_some hs
    cases s.hotSince with
    | none => exact .inl ⟨rfl, rfl⟩
    | some k => exact .inr rfl
  refine ⟨h.moved, h.changed, ?_, ?_, ?_, ?_, ?_⟩
  · exact List.forall_mem_cons.mpr ⟨Nat.le_refl _, h.checked⟩
  · intro k hs
    rcases hbegan k hs with ⟨-, rfl⟩ | hold
    · exact Nat.le_refl _
    · exact h.began k hold
  · intro k hs c hc hlt
    rcases List.mem_cons.mp hc with rfl | hc
    · exact hk.hot_seen hs
    · rcases hbegan k hs with ⟨-, rfl⟩ | hold
      · exact absurd (h.checked c hc) (Nat.not_le.mpr hlt)
      · exact h.hot k hold c hc hlt
  · exact List.forall_mem_cons.mpr ⟨fun _ => rfl, h.stayed⟩
  · intro k hs
    rcases hbegan k hs with ⟨-, rfl⟩ | hold
    · exact .inl h.changed
    · exact h.tied k hold

variable (C) in
/-- The move to the address, if one is made now. -/
def moving (s : Session A) (addr : A) (checks : List (Check A)) : Move A :=
  ⟨s.now, s.login, s.activeRelay, addr, s.candidates, s.loads.get (C.keyOf addr), checks⟩

omit [DecidableEq A] [DecidableEq π] in
/-- A check moves a session that was hot at every check of the last minute, all on its node, to a cool candidate. -/
theorem driven_check {s : Session A} {heard : List (π × Bytes)} {listed : List A} {since : Nat} {checks : List (Check A)}
    (hk : Known C s heard listed) (ht : Timed C s heard since checks) (hwait : ¬ s.now - s.lastMove < MOVE_EVERY)
    {roll : Rat} {addr : A} (haddr : addr ∈ s.candidates)
    (hchoice : rebalanceChoice (C.keyOf s.activeRelay) (s.keys C) s.loads s.hotSince roll s.now = some (C.keyOf addr)) :
    Driven C heard (moving C s addr checks) := by
  obtain ⟨-, ⟨k, hk', hlong⟩, -, r, hr, hfresh, hcool⟩ := rebalanceChoice_spec hchoice
  refine ⟨haddr, ⟨r, hr, hfresh, hcool, hk.published (hk.candidates haddr) hr⟩, fun c hc hlast => ?_⟩
  have hmoved := ht.moved
  have hbegan := ht.began k hk'
  have hlater : k < c.time ∧ since < c.time := by
    simp only [moving] at hlast
    rcases ht.tied k hk' with hle | hle <;> simp only [HOT_FOR_MS, MOVE_EVERY] at * <;> omega
  exact ⟨ht.stayed c hc hlater.2, ht.hot k hk' c hc hlater.1⟩

/-! ## Steps -/

variable {s z : Session A} {heard : List (π × Bytes)} {listed : List A} {since : Nat} {checks : List (Check A)}
  {moves : List (Move A)}

omit [DecidableEq A] [DecidableEq π] in
theorem Logged.move (h : Logged C s heard moves) {m : Move A} (hm : m.time = s.now)
    (hapart : ∀ m' ∈ moves, m'.time + MOVE_EVERY ≤ s.now) (hlogin : z.login = false)
    (hlast : z.lastMove = s.now) (hmoved : s.lastMove ≤ s.now) (hdriven : m.login = false → Driven C heard m) :
    Logged C z heard (m :: moves) where
  last := by
    rw [hlast]
    exact List.forall_mem_cons.mpr ⟨Nat.le_of_eq hm, fun m' hm' => Nat.le_trans (h.last m' hm') hmoved⟩
  login hl := by
    rw [hlogin] at hl
    cases hl
  apart := List.pairwise_cons.mpr ⟨fun m' hm' => hm ▸ hapart m' hm', h.apart⟩
  driven := List.forall_mem_cons.mpr ⟨hdriven, h.driven⟩

omit [DecidableEq A] [DecidableEq π] in
theorem Inv.of_calm (hk : Known C s t.heard t.listed) (ht : Timed C s t.heard t.since t.checks)
    (hl : Logged C s t.heard t.moves) (hc : Session.Calm s t.session) : t.Inv C :=
  ⟨hk.calm hc, ht.calm hc, hl.calm hc⟩

theorem Inv.quiet (h : t.Inv C) {e : Event A π} (hc : Session.Calm t.session (t.session.step C e).1)
    (hmove : (t.session.step C e).2 = none) (hchecks : t.checksAfter C e = t.checks)
    (hheard : (t.step C e).heard = t.heard) (hlisted : (t.step C e).listed = t.listed) : (t.step C e).Inv C := by
  have hsince : (t.step C e).since = t.since := if_pos hc.activeRelay
  have hmoves : t.movesAfter C e = t.moves := by rw [movesAfter, hmove]
  refine .of_calm (s := t.session) ?_ ?_ ?_ hc
  · rw [hheard, hlisted]
    exact h.known
  · rw [hheard, hsince, show (t.step C e).checks = t.checks from hchecks]
    exact h.timed
  · rw [hheard, show (t.step C e).moves = t.moves from hmoves]
    exact h.logged

omit [DecidableEq A] [DecidableEq π] in
theorem Inv.wait (h : t.Inv C) (ms : Nat) : Inv C { t with session := { t.session with now := t.session.now + ms } } where
  known := by
    refine ⟨h.known.names, h.known.relay, h.known.candidates, h.known.sweep, fun k r hr => ?_⟩
    obtain ⟨hstamp, hpub⟩ := h.known.readings k r hr
    refine ⟨le_trans hstamp ?_, hpub⟩
    have hle : ((t.session.now : Nat) : Rat) ≤ ((t.session.now + ms : Nat) : Rat) := Nat.cast_le.mpr (Nat.le_add_right ..)
    exact add_le_add_left hle _
  timed := by
    obtain ⟨hmoved, hchanged, hchecked, hbegan, hhot, hstayed, htied⟩ := h.timed
    exact ⟨Nat.le_add_right_of_le hmoved, Nat.le_add_right_of_le hchanged, fun c hc => Nat.le_add_right_of_le (hchecked c hc),
      fun k hk => Nat.le_add_right_of_le (hbegan k hk), hhot, hstayed, htied⟩
  logged := ⟨h.logged.last, h.logged.login, h.logged.apart, h.logged.driven⟩

omit [DecidableEq A] [DecidableEq π] in
theorem Inv.hears (h : t.Inv C) {heard : List (π × Bytes)} (hsub : t.heard ⊆ heard) : Inv C { t with heard := heard } where
  known := by
    refine ⟨h.known.names, h.known.relay, h.known.candidates, h.known.sweep, fun k r hr => ?_⟩
    obtain ⟨hstamp, a, ha, hkey, hpub⟩ := h.known.readings k r hr
    exact ⟨hstamp, a, ha, hkey, hpub.mono hsub⟩
  timed := by
    obtain ⟨hmoved, hchanged, hchecked, hbegan, hhot, hstayed, htied⟩ := h.timed
    exact ⟨hmoved, hchanged, hchecked, hbegan, fun k hk c hc hlt => (hhot k hk c hc hlt).mono hsub, hstayed, htied⟩
  logged := ⟨h.logged.last, h.logged.login, h.logged.apart, fun m hm hl => (h.logged.driven m hm hl).mono hsub⟩

omit [DecidableEq A] in
theorem Inv.frame (h : t.Inv C) {p : π} {data : Bytes} (hin : (p, data) ∈ t.heard) :
    Inv C { t with session := t.session.frame C (some p) data } := by
  unfold Session.frame
  split
  · exact h
  case h_2 r hr =>
    split
    case isFalse => exact h
    case isTrue hits =>
      rw [loadFromItsNode] at hits
      split at hits
      · cases hits
      case isFalse hstamp =>
        obtain ⟨a, ha, hpeer⟩ : ∃ a, (t.session.candidates.find? fun a => C.keyOf a = r.node) = some a ∧
            C.peerOf a = some p := by
          cases hf : t.session.candidates.find? fun a => C.keyOf a = r.node with
          | none => simp [hf] at hits
          | some a => exact ⟨a, rfl, by simpa [hf] using hits⟩
        refine ⟨⟨h.known.names, h.known.relay, h.known.candidates, h.known.sweep, fun k r' hr' => ?_⟩, ?_, ?_⟩
        · rcases OrdMap.get_set_some hr' with ⟨rfl, rfl⟩ | ⟨-, hold⟩
          · refine ⟨not_lt.mp hstamp, a, h.known.candidates (List.mem_of_find?_eq_some ha), ?_, p, data, hin, hr, hpeer⟩
            simpa using List.find?_some ha
          · exact h.known.readings k r' hold
        · obtain ⟨hmoved, hchanged, hchecked, hbegan, hhot, hstayed, htied⟩ := h.timed
          exact ⟨hmoved, hchanged, hchecked, hbegan, hhot, hstayed, htied⟩
        · exact ⟨h.logged.last, h.logged.login, h.logged.apart, h.logged.driven⟩

theorem inv_choice {e : Event A π} (hheard : (t.step C e).heard = t.heard) (hlisted : (t.step C e).listed = t.listed)
    (hk : Known C s t.heard t.listed) (ht : Timed C s t.heard t.since (t.checksAfter C e))
    (hrelay : s.activeRelay = t.session.activeRelay)
    (hstep : (t.session.step C e = (s, none) ∧ Logged C s t.heard t.moves) ∨
      ∃ z addr, t.session.step C e = (z, some addr) ∧ Session.Calm { s with lastMove := s.now } z ∧
        Logged C z t.heard (moving C t.session addr (t.checksAfter C e) :: t.moves)) : (t.step C e).Inv C := by
  rcases hstep with ⟨heq, hl⟩ | ⟨z, addr, heq, hc, hl⟩
  · have hsince : (t.step C e).since = t.since := by
      show (if (t.session.step C e).1.activeRelay = _ then _ else _) = _
      rw [heq, if_pos hrelay]
    have hmoves : t.movesAfter C e = t.moves := by rw [movesAfter, heq]
    refine ⟨?_, ?_, ?_⟩
    · rw [hheard, hlisted, show (t.step C e).session = s from congrArg Prod.fst heq]
      exact hk
    · rw [hheard, hsince, show (t.step C e).session = s from congrArg Prod.fst heq]
      exact ht
    · rw [hheard, show (t.step C e).moves = t.moves from hmoves, show (t.step C e).session = s from congrArg Prod.fst heq]
      exact hl
  · have hsince : (t.step C e).since = t.since := by
      show (if (t.session.step C e).1.activeRelay = _ then _ else _) = _
      rw [heq, if_pos (hc.activeRelay.trans hrelay)]
    have hmoves : t.movesAfter C e = moving C t.session addr (t.checksAfter C e) :: t.moves := by
      rw [movesAfter, heq]
      rfl
    refine ⟨?_, ?_, ?_⟩
    · rw [hheard, hlisted, show (t.step C e).session = z from congrArg Prod.fst heq]
      have hlater : Known C { s with lastMove := s.now } t.heard t.listed :=
        ⟨hk.names, hk.relay, hk.candidates, hk.sweep, hk.readings⟩
      exact hlater.calm hc
    · rw [hheard, hsince, show (t.step C e).session = z from congrArg Prod.fst heq]
      exact ht.later.calm hc
    · rw [hheard, show (t.step C e).moves = _ from hmoves, show (t.step C e).session = z from congrArg Prod.fst heq]
      exact hl

theorem Inv.check (h : t.Inv C) (roll : Rat) : (t.step C (.check roll)).Inv C := by
  by_cases hguard : (t.session.login || t.session.closed || t.session.redialing) = true
  · have hstep : t.session.step C (.check roll) = (t.session, none) := if_pos hguard
    refine h.quiet ?_ (congrArg Prod.snd hstep) (if_pos hguard) rfl rfl
    rw [hstep]
    exact .refl _
  · have hlogin : t.session.login = false := by simp_all
    have hchecks : t.checksAfter C (.check roll) = seen C t.session :: t.checks := if_neg hguard
    let s : Session A := { t.session with hotSince := t.session.streak C }
    have hk : Known C s t.heard t.listed := ⟨h.known.names, h.known.relay, h.known.candidates, h.known.sweep, h.known.readings⟩
    have ht : Timed C s t.heard t.since (t.checksAfter C (.check roll)) := hchecks ▸ h.timed.check h.known
    have hl : Logged C s t.heard t.moves := ⟨h.logged.last, h.logged.login, h.logged.apart, h.logged.driven⟩
    refine inv_choice rfl rfl hk ht rfl ?_
    by_cases hwait : s.now - s.lastMove < MOVE_EVERY
    · left
      refine ⟨?_, hl⟩
      show t.session.check C roll = _
      rw [Session.check, if_neg hguard]
      exact if_pos hwait
    · have hstep : t.session.step C (.check roll) =
          s.moveTo C (rebalanceChoice (C.keyOf s.activeRelay) (s.keys C) s.loads s.hotSince roll s.now) := by
        show t.session.check C roll = _
        rw [Session.check, if_neg hguard]
        exact if_neg hwait
      rw [hstep]
      rcases Session.moveTo_cases (C := C) (s := s)
        (rebalanceChoice (C.keyOf s.activeRelay) (s.keys C) s.loads s.hotSince roll s.now) with
        heq | ⟨k, addr, z, hchoice, haddr, rfl, heq, hc⟩
      · exact .inl ⟨heq, hl⟩
      · refine .inr ⟨z, addr, heq, hc, ?_⟩
        refine hl.move rfl (fun m hm => ?_) (hc.login.trans hlogin) hc.lastMove h.timed.moved fun _ => ?_
        · have hlast := h.logged.last m hm
          have hmoved := h.timed.moved
          have hnot : ¬ t.session.now - t.session.lastMove < MOVE_EVERY := hwait
          show m.time + MOVE_EVERY ≤ t.session.now
          omega
        · exact driven_check hk ht hwait haddr hchoice

theorem Inv.login (h : t.Inv C) (roll : Rat) : (t.step C (.login roll)).Inv C := by
  cases hlogin : t.session.login with
  | false =>
      have hstep : t.session.step C (.login roll) = (t.session, none) := if_neg (by simp [hlogin])
      refine h.quiet ?_ (congrArg Prod.snd hstep) rfl rfl rfl
      rw [hstep]
      exact .refl _
  | true =>
      let s : Session A := { t.session with login := false }
      have hempty := h.logged.login hlogin
      have hk : Known C s t.heard t.listed := ⟨h.known.names, h.known.relay, h.known.candidates, h.known.sweep, h.known.readings⟩
      have ht : Timed C s t.heard t.since t.checks := by
        obtain ⟨hmoved, hchanged, hchecked, hbegan, hhot, hstayed, htied⟩ := h.timed
        exact ⟨hmoved, hchanged, hchecked, hbegan, hhot, hstayed, htied⟩
      have hl : Logged C s t.heard t.moves := ⟨h.logged.last, fun _ => hempty, h.logged.apart, h.logged.driven⟩
      refine inv_choice rfl rfl hk ht rfl ?_
      have hstep : ∃ key, t.session.step C (.login roll) = s.moveTo C key := ⟨_, if_pos hlogin⟩
      obtain ⟨key, hstep⟩ := hstep
      rw [hstep]
      rcases Session.moveTo_cases (C := C) (s := s) key with heq | ⟨k, addr, z, -, haddr, rfl, heq, hc⟩
      · exact .inl ⟨heq, hl⟩
      · refine .inr ⟨z, addr, heq, hc, ?_⟩
        refine hl.move rfl (fun m hm => ?_) hc.login hc.lastMove h.timed.moved fun hnot => ?_
        · rw [hempty] at hm
          cases hm
        · rw [moving, hlogin] at hnot
          cases hnot

omit [DecidableEq A] [DecidableEq π] in
theorem Known.more (h : Known C s heard listed) {list : List A} (hnames : Stable C (listed ++ list)) :
    Known C s heard (listed ++ list) where
  names := hnames
  relay := List.mem_append_left _ h.relay
  candidates a ha := List.mem_append_left _ (h.candidates ha)
  sweep a ha := List.mem_append_left _ (h.sweep ha)
  readings k r hr := by
    obtain ⟨hstamp, a, ha, hrest⟩ := h.readings k r hr
    exact ⟨hstamp, a, List.mem_append_left _ ha, hrest⟩

theorem Inv.setRelays (h : t.Inv C) (list : List A) (hnames : Stable C (t.listed ++ list)) :
    (t.step C (.setRelays list)).Inv C := by
  have hmore := h.known.more hnames
  let s : Session A := if list = [] then t.session else { t.session with candidates := list }
  have hk : Known C s t.heard (t.listed ++ list) := by
    unfold s
    split
    · exact hmore
    · exact ⟨hnames, hmore.relay, List.subset_append_right .., hmore.sweep, hmore.readings⟩
  have ht : Timed C s t.heard t.since t.checks := by
    obtain ⟨hmoved, hchanged, hchecked, hbegan, hhot, hstayed, htied⟩ := h.timed
    unfold s
    split <;> exact ⟨hmoved, hchanged, hchecked, hbegan, hhot, hstayed, htied⟩
  have hl : Logged C s t.heard t.moves := by
    unfold s
    split <;> exact ⟨h.logged.last, h.logged.login, h.logged.apart, h.logged.driven⟩
  have hc : Session.Calm s (t.session.setRelays list) := by
    unfold s Session.setRelays
    split
    · exact .refl _
    · dsimp only
      split
      · exact .refl _
      · exact Session.calm_reconnect
  have hrelay : (t.session.setRelays list).activeRelay = t.session.activeRelay := by
    rw [hc.activeRelay]
    unfold s
    split <;> rfl
  have hsince : (t.step C (.setRelays list)).since = t.since := if_pos hrelay
  refine ⟨hk.calm hc, ?_, hl.calm hc⟩
  rw [hsince]
  exact ht.calm hc

/-- A dial that connects: to the node that it was, or to another where no streak can lead to a move soon. -/
theorem Inv.dialed (h : t.Inv C) (addr : A) (hclear : t.Clear C (.dialed addr)) : (t.step C (.dialed addr)).Inv C := by
  cases hconnects : t.session.connects addr with
  | false =>
      have hstep : t.session.step C (.dialed addr) = (t.session, none) :=
        Prod.ext (if_neg (by simp [hconnects])) rfl
      refine h.quiet ?_ rfl rfl rfl rfl
      rw [hstep]
      exact .refl _
  | true =>
      have hsweep : addr ∈ t.session.sweep := by
        simp only [Session.connects, Bool.and_eq_true, decide_eq_true_eq] at hconnects
        exact hconnects.2
      let z : Session A := { t.session with activeRelay := addr, redialing := false, sweep := [] }
      have hz : (t.step C (.dialed addr)).session = z := if_pos hconnects
      have hk : Known C z t.heard t.listed :=
        ⟨h.known.names, h.known.sweep hsweep, h.known.candidates, List.nil_subset _, h.known.readings⟩
      have hl : Logged C z t.heard t.moves := ⟨h.logged.last, h.logged.login, h.logged.apart, h.logged.driven⟩
      obtain ⟨hmoved, hchanged, hchecked, hbegan, hhot, hstayed, htied⟩ := h.timed
      refine ⟨hz ▸ hk, ?_, hz ▸ hl⟩
      have hrelay : (t.session.step C (.dialed addr)).1.activeRelay = addr := congrArg Session.activeRelay hz
      -- on another node the checks of the streak, if there is one, were made before the change
      by_cases hsame : addr = t.session.activeRelay
      · have hsince : (t.step C (.dialed addr)).since = t.since := if_pos (hrelay.trans hsame)
        rw [hsince, hz]
        refine ⟨hmoved, hchanged, hchecked, hbegan, hhot, fun c hc hlt => ?_, htied⟩
        exact (hstayed c hc hlt).trans hsame.symm
      · have hsince : (t.step C (.dialed addr)).since = t.session.now := if_neg fun heq => hsame (hrelay.symm.trans heq)
        rw [hsince, hz]
        refine ⟨hmoved, Nat.le_refl _, hchecked, hbegan, hhot, fun c hc hlt => ?_, fun k hk' => ?_⟩
        · exact absurd (hchecked c hc) (Nat.not_le.mpr hlt)
        · refine .inr ((hclear hconnects hsame).resolve_left fun hnone => ?_)
          rw [show t.session.hotSince = some k from hk'] at hnone
          cases hnone

theorem Inv.step (h : t.Inv C) (e : Event A π) (hclear : t.Clear C e) : (t.step C e).Inv C := by
  cases e with
  | wait ms =>
      have hsince : (t.step C (.wait ms)).since = t.since := if_pos rfl
      have hw := h.wait ms
      exact ⟨hw.known, hsince ▸ hw.timed, hw.logged⟩
  | frame sender data =>
      have hrelay : (t.session.frame C sender data).activeRelay = t.session.activeRelay := by
        unfold Session.frame
        split
        · rfl
        · split <;> rfl
      have hsince : (t.step C (.frame sender data)).since = t.since := if_pos hrelay
      cases sender with
      | none =>
          refine h.quiet ?_ rfl rfl rfl rfl
          rw [show (t.session.step C (.frame none data)).1 = t.session.frame C none data from rfl, Session.frame]
          split <;> exact .refl _
      | some p =>
          have hin : (p, data) ∈ (p, data) :: t.heard := List.mem_cons_self ..
          have hf := Inv.frame (h.hears (List.subset_cons_self (p, data) t.heard)) hin
          exact ⟨hf.known, hsince ▸ hf.timed, hf.logged⟩
  | login roll => exact h.login roll
  | check roll => exact h.check roll
  | reconnect => exact h.quiet Session.calm_reconnect rfl rfl rfl rfl
  | dial => exact h.quiet Session.calm_dial rfl rfl rfl rfl
  | dialed addr => exact h.dialed addr hclear
  | connected =>
      exact h.quiet ⟨rfl, rfl, rfl, rfl, rfl, rfl, List.Subset.refl _, fun a ha => absurd ha List.not_mem_nil⟩ rfl rfl rfl rfl
  | setRelays list => exact h.setRelays list hclear
  | close => exact h.quiet ⟨rfl, rfl, rfl, rfl, rfl, rfl, List.Subset.refl _, fun a ha => .inl ha⟩ rfl rfl rfl rfl

omit [DecidableEq A] [DecidableEq π] in
theorem Inv.start {relays : List A} (i : Fin relays.length) (now : Nat) (hnames : Stable C relays) :
    (start relays i now : Trial A π).Inv C where
  known := ⟨hnames, List.getElem_mem _, List.Subset.refl _, List.nil_subset _, fun k r hr => by cases hr⟩
  timed := ⟨Nat.zero_le _, Nat.le_refl _, fun c hc => absurd hc List.not_mem_nil, fun k hk => (by cases hk),
    fun k hk => (by cases hk), fun c hc => absurd hc List.not_mem_nil, fun k hk => (by cases hk)⟩
  logged := ⟨fun m hm => absurd hm List.not_mem_nil, fun _ => rfl, .nil, fun m hm => absurd hm List.not_mem_nil⟩

end Trial

/-- Of relays whose keys name their peers, along a run whose lists keep to that and whose dials land on another node only
between streaks, moves are disciplined. -/
theorem moves_disciplined {A π : Type} [DecidableEq A] [DecidableEq π] (C : Config A π) (relays : List A)
    (i : Fin relays.length) (now : Nat) (hnames : Trial.Stable C relays) {t : Trial A π}
    (h : Reach (Trial.step C) (Trial.Clear C) (.start relays i now) t) : t.Disciplined C :=
  Trial.Inv.disciplined (h.invariant (.start i now hnames) fun _ e hi hok => hi.step e hok)

/-! ## Two runs -/

/-- Three nodes, and another peer under the first one's name. -/
def sampleKey : Nat → String
  | 1 => "b"
  | 2 => "c"
  | _ => "a"

/-- A frame is a node and how full it is. -/
def sampleConfig : Config Nat Nat where
  keyOf := sampleKey
  peerOf a := some a
  weights _ := none
  parse
    | [n, pct] =>
      some (.obj [("v", .num 1), ("n", .str (sampleKey n.toNat)), ("pct", .num pct.toNat), ("at", .num 1000000)])
    | _ => none

def sampleRun (es : List (Event Nat Nat)) : Trial Nat Nat :=
  es.foldl (Trial.step sampleConfig) (.start [0, 1, 2] ⟨0, Nat.zero_lt_succ _⟩ 1000000)

theorem stable_sample : Trial.Stable sampleConfig [0, 1, 2] := by
  intro a ha b hb
  simp only [List.mem_cons, List.not_mem_nil, or_false] at ha hb
  rcases ha with rfl | rfl | rfl <;> rcases hb with rfl | rfl | rfl <;> simp [sampleConfig, sampleKey]

/-- A reading, the login decision and a check. -/
theorem moves_disciplined_sample :
    (sampleRun [.frame (some 0) [0, 90], .login 0, .wait 20000, .check 0]).Disciplined sampleConfig :=
  moves_disciplined sampleConfig _ _ _ stable_sample
    (Admits.reach .start ⟨trivial, trivial, trivial, trivial, trivial⟩)

/-- The first node is hot, and so is the second, which the session fails over to. -/
def failover : List (Event Nat Nat) :=
  [.frame (some 0) [0, 90], .frame (some 1) [1, 90], .frame (some 2) [2, 10], .login 0, .check 0, .wait 20000, .check 0,
    .reconnect, .dial, .dialed 1, .wait 40000, .check 0]

/-- A session moves after a minute of which it was on another node; and a reading is there for a node whose peer did not
publish it. -/
theorem moves_undisciplined :
    (¬ ∀ es, ∀ m ∈ (sampleRun es).moves, m.login = false →
        ∀ c ∈ m.checks, m.time - c.time < HOT_FOR_MS → c.relay = m.relay) ∧
      ¬ ∀ es, ∀ a ∈ (sampleRun es).session.candidates, ∀ r, (sampleRun es).session.loads.get (sampleConfig.keyOf a) = some r →
        Trial.Published sampleConfig (sampleRun es).heard a r := by
  constructor
  · intro h
    have hany : ((sampleRun failover).moves.any fun m => !m.login &&
        m.checks.any fun c => decide (m.time - c.time < HOT_FOR_MS) && decide (c.relay ≠ m.relay)) = true := by
      decide +kernel
    obtain ⟨m, hm, hmove⟩ := List.any_eq_true.mp hany
    rw [Bool.and_eq_true, Bool.not_eq_true', List.any_eq_true] at hmove
    obtain ⟨hlogin, c, hc, hcheck⟩ := hmove
    rw [Bool.and_eq_true, decide_eq_true_eq, decide_eq_true_eq] at hcheck
    exact hcheck.2 (h failover m hm hlogin c hc hcheck.1)
  · intro h
    have hsome : ((sampleRun [.frame (some 0) [0, 50], .setRelays [3]]).session.loads.get
        (sampleConfig.keyOf 3)).isSome = true := by decide +kernel
    have hlisted : 3 ∈ (sampleRun [.frame (some 0) [0, 50], .setRelays [3]]).session.candidates := by decide +kernel
    obtain ⟨r, hr⟩ := Option.isSome_iff_exists.mp hsome
    obtain ⟨p, data, hin, -, hpeer⟩ := h [.frame (some 0) [0, 50], .setRelays [3]] 3 hlisted r hr
    obtain rfl := Option.some.inj hpeer
    rcases List.mem_singleton.mp hin with heq
    cases heq

end EncedoChat.Nodes
