import EncedoChat.Lib.Run

/-!
# Sealed stores

`lib/sealedstore.ts` over one identity's stores, where sealing is ideal: a blob opens, in its own store, to what was
sealed. A call reads what it reads at once, and stores when what it seals is sealed.
-/

namespace EncedoChat.Sealed

inductive Store where
  | invites
  | waiting
  | ignored
  | outbox
  | prefs
  | seen
  | gleft
  | netkey
  deriving DecidableEq

def STORES : List Store := [.invites, .waiting, .ignored, .outbox, .prefs, .seen, .gleft, .netkey]

/-- The text of a store: plain JSON, a blob that was sealed for it, or what is neither. -/
inductive Text (V : Type) where
  | json (v : V)
  | blob (v : V)
  | other

structure KV (V : Type) where
  stores : Store → Option (Text V)
  /-- the `sealed` record is there -/
  sealed : Bool

/-- A call that awaits what it seals. -/
inductive Call (V : Type) where
  | writing (store : Store) (v : V)
  /-- `sealPlainStores`, the stores that it still has, and its count -/
  | sealing (store : Store) (v : V) (rest : List Store) (n : Nat)

structure State (V : Type) where
  kv : KV V
  calls : List (Call V)

inductive Event (V : Type) where
  | read (store : Store) (isMine : V → Bool)
  | write (store : Store) (v : V)
  | sealPlainStores
  /-- somebody puts plain JSON into a store -/
  | put (store : Store) (v : V)
  /-- what the call awaits is sealed -/
  | resume (k : Nat)

def Text.value {V : Type} : Text V → Option V
  | .json v => some v
  | .blob v => some v
  | .other => none

namespace Call

variable {V : Type}

def store : Call V → Store
  | .writing store _ => store
  | .sealing store _ _ _ => store

def value : Call V → V
  | .writing _ v => v
  | .sealing _ v _ _ => v

end Call

namespace KV

variable {V : Type} (kv : KV V)

def set (store : Store) (text : Text V) : KV V :=
  { kv with stores := fun s => if s = store then some text else kv.stores s }

/-- What a store's text says. -/
def value (store : Store) : Option V := (kv.stores store).bind Text.value

/-- `readSealedKV`: what it returns is settled before it awaits. -/
def readSealedKV (base : Bool) (store : Store) (isMine : V → Bool) : Option V :=
  match kv.stores store with
  | none => none
  | some (.json v) => if kv.sealed then none else if isMine v then some v else none
  | some (.blob v) => if base then some v else none
  | some .other => none

end KV

namespace State

variable {V : Type} (base : Bool) (s : State V)

/-- The loop of `sealPlainStores`, up to the next await, or its end with what it returns. -/
def sealFrom (n : Nat) : List Store → State V × Option Nat
  | [] => ({ s with kv := { s.kv with sealed := true } }, some n)
  | store :: rest =>
    match s.kv.stores store with
    | some (.json v) => ({ s with calls := s.calls ++ [.sealing store v rest n] }, none)
    | _ => sealFrom n rest

def sealPlainStores : State V × Option Nat := if base then s.sealFrom 0 STORES else (s, none)

def writeSealedKV (store : Store) (v : V) : State V :=
  if base then { s with calls := s.calls ++ [.writing store v] } else s

/-- What is sealed is stored. -/
def land (k : Nat) (c : Call V) : State V :=
  -- what has been stored meanwhile is not looked at
  { kv := s.kv.set c.store (.blob c.value), calls := s.calls.eraseIdx k }

def resume (k : Nat) : State V × Option Nat :=
  match s.calls[k]? with
  | none => (s, none)
  | some c =>
    match c with
    | .writing .. => (s.land k c, none)
    | .sealing _ _ rest n => (s.land k c).sealFrom (n + 1) rest

/-- An event, and whether `sealPlainStores` has completed with it. -/
def step : Event V → State V × Option Nat
  | .read .. => (s, none)
  | .write store v => (s.writeSealedKV base store v, none)
  | .sealPlainStores => s.sealPlainStores base
  | .put store v => ({ s with kv := s.kv.set store (.json v) }, none)
  | .resume k => s.resume k

/-! ## Where values come from -/

/-- The value is in a store, or awaits to be. -/
def Has (v : V) : Prop := (∃ store, s.kv.value store = some v) ∨ ∃ c ∈ s.calls, c.value = v

variable {s}

theorem value_set (kv : KV V) (store : Store) (text : Text V) (s : Store) :
    (kv.set store text).value s = if s = store then text.value else kv.value s := by
  unfold KV.value KV.set
  dsimp only
  split <;> rfl

theorem stores_sealFrom (n : Nat) (rest : List Store) : (s.sealFrom n rest).1.kv.stores = s.kv.stores := by
  induction rest with
  | nil => rfl
  | cons store rest ih =>
      rw [sealFrom]
      split
      · rfl
      · exact ih

theorem sealFrom_cases (n : Nat) (rest : List Store) :
    (∃ m, s.sealFrom n rest = ({ s with kv := { s.kv with sealed := true } }, some m)) ∨
      ∃ store v rest', s.kv.value store = some v ∧
        s.sealFrom n rest = ({ s with calls := s.calls ++ [.sealing store v rest' n] }, none) := by
  induction rest with
  | nil => exact .inl ⟨n, rfl⟩
  | cons store rest ih =>
      rw [sealFrom]
      split
      case h_1 v hv => exact .inr ⟨store, v, rest, by rw [KV.value, hv]; rfl, rfl⟩
      · exact ih

theorem has_sealFrom {n : Nat} {rest : List Store} {v : V} (h : (s.sealFrom n rest).1.Has v) : s.Has v := by
  rcases sealFrom_cases (s := s) n rest with ⟨m, heq⟩ | ⟨store, w, rest', hw, heq⟩
  · rw [heq] at h
    exact h
  · rw [heq] at h
    rcases h with h | ⟨c, hc, hv⟩
    · exact .inl h
    · rcases List.mem_append.mp hc with hin | hnew
      · exact .inr ⟨c, hin, hv⟩
      · rw [List.mem_singleton] at hnew
        rw [hnew] at hv
        exact .inl ⟨store, hw.trans (congrArg some hv)⟩

theorem has_land {k : Nat} {c : Call V} {v : V} (hc : s.calls[k]? = some c) (h : (s.land k c).Has v) : s.Has v := by
  rcases h with ⟨store, hv⟩ | ⟨c', hc', hv⟩
  · rw [land, value_set] at hv
    split at hv
    · exact .inr ⟨c, List.mem_of_getElem? hc, Option.some.inj hv⟩
    · exact .inl ⟨store, hv⟩
  · exact .inr ⟨c', List.mem_of_mem_eraseIdx hc', hv⟩

theorem has_resume {k : Nat} {v : V} (h : (s.resume k).1.Has v) : s.Has v := by
  unfold resume at h
  split at h
  · exact h
  case h_2 c hc =>
    split at h
    · exact has_land hc h
    · exact has_land hc (has_sealFrom h)

theorem has_step {e : Event V} {v : V} (h : (s.step base e).1.Has v) :
    s.Has v ∨ ∃ store, e = .write store v ∨ e = .put store v := by
  cases e with
  | read store isMine => exact .inl h
  | write store w =>
      rw [step, writeSealedKV] at h
      split at h
      · rcases h with h | ⟨c, hc, hv⟩
        · exact .inl (.inl h)
        · rcases List.mem_append.mp hc with hin | hnew
          · exact .inl (.inr ⟨c, hin, hv⟩)
          · rw [List.mem_singleton] at hnew
            subst hnew
            exact .inr ⟨store, .inl (congrArg (Event.write store) hv)⟩
      · exact .inl h
  | sealPlainStores =>
      rw [step, sealPlainStores] at h
      split at h
      · exact .inl (has_sealFrom h)
      · exact .inl h
  | put store w =>
      rcases h with ⟨store', hv⟩ | h
      · rw [step, value_set] at hv
        split at hv
        · exact .inr ⟨store, .inr (congrArg (Event.put store) (Option.some.inj hv))⟩
        · exact .inl (.inl ⟨store', hv⟩)
      · exact .inl (.inr h)
  | resume k => exact .inl (has_resume h)

/-- The values that an event leaves in the stores. -/
def valueAfter (s : State V) : Event V → Store → Option V
  | .put store v, s' => if s' = store then some v else s.kv.value s'
  | .resume k, s' => match s.calls[k]? with
    | none => s.kv.value s'
    | some c => if s' = c.store then some c.value else s.kv.value s'
  | _, s' => s.kv.value s'

theorem valueAfter_resume {k : Nat} {c : Call V} (hc : s.calls[k]? = some c) (store : Store) :
    s.valueAfter (.resume k) store = if store = c.store then some c.value else s.kv.value store := by
  rw [valueAfter, hc]

theorem value_sealFrom (n : Nat) (rest : List Store) (store : Store) :
    (s.sealFrom n rest).1.kv.value store = s.kv.value store := by rw [KV.value, stores_sealFrom, KV.value]

theorem value_step (e : Event V) (store : Store) : (s.step base e).1.kv.value store = s.valueAfter e store := by
  cases e with
  | read => rfl
  | write store' v =>
      rw [step, writeSealedKV]
      split <;> rfl
  | sealPlainStores =>
      rw [step, sealPlainStores]
      split
      · exact value_sealFrom ..
      · rfl
  | put store' v => exact value_set ..
  | resume k =>
      rw [step, resume, valueAfter]
      split
      · rfl
      · split
        · exact value_set ..
        · rw [value_sealFrom]
          exact value_set ..

/-! ## The marker -/

theorem sealed_sealFrom (n : Nat) (rest : List Store) :
    (s.kv.sealed = true ∨ (s.sealFrom n rest).2.isSome = true) → (s.sealFrom n rest).1.kv.sealed = true := by
  rcases sealFrom_cases (s := s) n rest with ⟨m, heq⟩ | ⟨store, v, rest', -, heq⟩
  · rw [heq]
    exact fun _ => rfl
  · rw [heq]
    exact fun h => h.resolve_right (fun h => by cases h)

/-- The marker stays, and `sealPlainStores` leaves it. -/
theorem sealed_step (e : Event V) :
    (s.kv.sealed = true ∨ (s.step base e).2.isSome = true) → (s.step base e).1.kv.sealed = true := by
  cases e with
  | read => exact fun h => h.resolve_right (fun h => by cases h)
  | write store v =>
      refine fun h => ?_
      rw [step, writeSealedKV]
      split <;> exact h.resolve_right (fun h => by cases h)
  | sealPlainStores =>
      rw [step, sealPlainStores]
      split
      · exact sealed_sealFrom _ _
      · exact fun h => h.resolve_right (fun h => by cases h)
  | put store v => exact fun h => h.resolve_right (fun h => by cases h)
  | resume k =>
      rw [step, resume]
      split
      · exact fun h => h.resolve_right (fun h => by cases h)
      · split
        · exact fun h => h.resolve_right (fun h => by cases h)
        · exact sealed_sealFrom (s := s.land k _) _ _

end State

/-! ## Where a value is from, and how old it is -/

inductive Origin where
  /-- `writeSealedKV`; so is a blob that is found at sign-in -/
  | written
  /-- plain JSON, put there after `sealPlainStores` had completed, or before -/
  | plain (afterSealed : Bool)
  deriving DecidableEq

structure Stamp where
  origin : Origin
  /-- when it was written, or put there -/
  version : Nat

def Text.found {V : Type} : Text V → Text (V × Stamp)
  | .json v => .json (v, ⟨.plain false, 0⟩)
  | .blob v => .blob (v, ⟨.written, 0⟩)
  | .other => .other

/-- The stores of an identity since it was found at sign-in. -/
structure Trial (V : Type) where
  state : State (V × Stamp)
  clock : Nat
  /-- `sealPlainStores` has completed -/
  done : Bool
  /-- the newest write of a store that has completed -/
  completed : Store → Nat
  /-- what reads have returned, and their tests -/
  returned : List ((V → Bool) × V × Stamp)

namespace Trial

variable {V : Type} (base : Bool)

def start (found : KV V) : Trial V where
  state := ⟨⟨fun store => (found.stores store).map Text.found, found.sealed⟩, []⟩
  clock := 0
  done := false
  completed _ := 0
  returned := []

def stamped (t : Trial V) : Event V → Event (V × Stamp)
  | .read store isMine => .read store fun v => isMine v.1
  | .write store v => .write store (v, ⟨.written, t.clock + 1⟩)
  | .sealPlainStores => .sealPlainStores
  | .put store v => .put store (v, ⟨.plain t.done, t.clock + 1⟩)
  | .resume k => .resume k

def completedAfter (t : Trial V) : Event V → Store → Nat
  | .resume k, store => match t.state.calls[k]? with
    | some (.writing store' v) => if store = store' then max (t.completed store) v.2.version else t.completed store
    | _ => t.completed store
  | _, store => t.completed store

def returnedAfter (t : Trial V) : Event V → List ((V → Bool) × V × Stamp)
  | .read store isMine =>
    ((t.state.kv.readSealedKV base store fun v => isMine v.1).map (isMine, ·)).toList ++ t.returned
  | _ => t.returned

def step (t : Trial V) (e : Event V) : Trial V where
  state := (t.state.step base (t.stamped e)).1
  clock := t.clock + 1
  done := t.done || (t.state.step base (t.stamped e)).2.isSome
  completed := t.completedAfter e
  returned := t.returnedAfter base e

def run (found : KV V) (es : List (Event V)) : Trial V := es.foldl (step base) (start found)

/-- How old what a store says is. -/
def versionAt (t : Trial V) (store : Store) : Nat := ((t.state.kv.value store).map fun v => v.2.version).getD 0

/-- What a reader with this test may have. -/
def Allowed (isMine : V → Bool) (v : V × Stamp) : Prop :=
  (v.2.origin = .written ∨ isMine v.1 = true) ∧ v.2.origin ≠ .plain true

/-- What is returned was written or passes the test, and was not put there after all was sealed; and a completed write
is not replaced by what is older. -/
structure Sound (t : Trial V) : Prop where
  returned : ∀ r ∈ t.returned, Allowed r.1 r.2
  newest : ∀ store, t.completed store ≤ t.versionAt store

/-- A reader finds no blob that `sealPlainStores` made of what its test refuses, or of what came after all was sealed;
and what is stored is not older than a write of that store that has completed. -/
def Clear (t : Trial V) : Event V → Prop
  | .read store isMine => ∀ v, base = true → t.state.kv.stores store = some (.blob v) → Allowed isMine v
  | .resume k => ∀ c, t.state.calls[k]? = some c → t.completed c.store ≤ c.value.2.version
  | _ => True

variable {base : Bool} {t : Trial V}

/-! ## The invariant -/

/-- Nothing is newer than the clock, and what came after all was sealed is there only with the marker. -/
structure Inv (t : Trial V) : Prop extends t.Sound where
  versions : ∀ v, t.state.Has v → v.2.version ≤ t.clock
  late : ∀ v, t.state.Has v → v.2.origin = .plain true → t.state.kv.sealed = true
  marked : t.done = true → t.state.kv.sealed = true
  completed : ∀ store, t.completed store ≤ t.clock

theorem value_found (kv : KV V) (store : Store) {v : V × Stamp} (h : (start kv).state.kv.value store = some v) :
    v.2 = ⟨.plain false, 0⟩ ∨ v.2 = ⟨.written, 0⟩ := by
  unfold start KV.value at h
  dsimp only at h
  cases hs : kv.stores store with
  | none =>
      rw [hs] at h
      cases h
  | some text =>
      rw [hs] at h
      cases text with
      | json w =>
          obtain rfl := Option.some.inj h
          exact .inl rfl
      | blob w =>
          obtain rfl := Option.some.inj h
          exact .inr rfl
      | other => cases h

theorem Inv.start (kv : KV V) : (start kv).Inv where
  returned r hr := absurd hr List.not_mem_nil
  newest store := Nat.zero_le _
  versions v hv := by
    rcases hv with ⟨store, hv⟩ | ⟨c, hc, -⟩
    · rcases value_found kv store hv with h | h <;> rw [h] <;> exact Nat.le_refl 0
    · exact absurd hc List.not_mem_nil
  late v hv horigin := by
    rcases hv with ⟨store, hv⟩ | ⟨c, hc, -⟩
    · rcases value_found kv store hv with h | h <;> rw [h] at horigin <;> cases horigin
    · exact absurd hc List.not_mem_nil
  marked h := by cases h
  completed store := Nat.le_refl 0

theorem readSealedKV_cases {kv : KV V} {store : Store} {isMine : V → Bool} {v : V}
    (h : kv.readSealedKV base store isMine = some v) :
    (kv.stores store = some (.json v) ∧ kv.sealed = false ∧ isMine v = true) ∨
      (kv.stores store = some (.blob v) ∧ base = true) := by
  unfold KV.readSealedKV at h
  split at h
  · cases h
  case h_2 w hw =>
    split at h
    · cases h
    case isFalse hs =>
      split at h
      case isTrue hmine =>
        obtain rfl := Option.some.inj h
        exact .inl ⟨hw, by simpa using hs, hmine⟩
      · cases h
  case h_3 w hw =>
    split at h
    case isTrue hbase =>
      obtain rfl := Option.some.inj h
      exact .inr ⟨hw, hbase⟩
    · cases h
  · cases h

theorem Inv.returned_step (h : t.Inv) (e : Event V) (hclear : t.Clear base e) :
    ∀ r ∈ t.returnedAfter base e, Allowed r.1 r.2 := by
  cases e with
  | read store isMine =>
      intro r hr
      rcases List.mem_append.mp hr with hr | hr
      · obtain ⟨v, hv, rfl⟩ := Option.map_eq_some_iff.mp (Option.mem_toList.mp hr)
        rcases readSealedKV_cases hv with ⟨hjson, hsealed, hmine⟩ | ⟨hblob, hbase⟩
        · refine ⟨.inr hmine, fun hlate => ?_⟩
          have hhas : t.state.Has v := .inl ⟨store, by rw [KV.value, hjson]; rfl⟩
          rw [h.late v hhas hlate] at hsealed
          cases hsealed
        · exact hclear v hbase hblob
      · exact h.returned r hr
  | _ => exact h.returned

theorem completedAfter_cases {k : Nat} {c : Call (V × Stamp)} (hc : t.state.calls[k]? = some c) (store : Store) :
    t.completedAfter (.resume k) store = t.completed store ∨
      (store = c.store ∧ t.completedAfter (.resume k) store = max (t.completed store) c.value.2.version) := by
  rw [completedAfter, hc]
  cases c with
  | writing store' v =>
      by_cases hstore : store = store'
      · exact .inr ⟨hstore, if_pos hstore⟩
      · exact .inl (if_neg hstore)
  | sealing => exact .inl rfl

theorem completed_le_after (e : Event V) (store : Store) : t.completed store ≤ t.completedAfter e store := by
  cases e with
  | resume k =>
      cases hc : t.state.calls[k]? with
      | none => simp [completedAfter, hc]
      | some c =>
          rcases completedAfter_cases hc store with heq | ⟨-, heq⟩
          · exact Nat.le_of_eq heq.symm
          · exact heq ▸ Nat.le_max_left ..
  | _ => exact Nat.le_refl _

theorem Inv.newest_step (h : t.Inv) (e : Event V) (hclear : t.Clear base e) (store : Store) :
    t.completedAfter e store ≤ (t.step base e).versionAt store := by
  rw [versionAt, step, State.value_step]
  cases e with
  | put store' v =>
      simp only [completedAfter, stamped, State.valueAfter]
      split
      · exact Nat.le_succ_of_le (h.completed store)
      · exact h.newest store
  | resume k =>
      rw [stamped]
      cases hc : t.state.calls[k]? with
      | none =>
          simp only [completedAfter, State.valueAfter, hc]
          exact h.newest store
      | some c =>
          rw [State.valueAfter_resume hc]
          rcases completedAfter_cases hc store with heq | ⟨rfl, heq⟩
          · rw [heq]
            split
            case isTrue hstore =>
              subst hstore
              exact hclear c hc
            · exact h.newest store
          · rw [heq, if_pos rfl]
            exact Nat.max_le.mpr ⟨hclear c hc, Nat.le_refl _⟩
  | _ => exact h.newest store

theorem Inv.versions_step (h : t.Inv) (e : Event V) (v : V × Stamp) (hv : (t.step base e).state.Has v) :
    v.2.version ≤ t.clock + 1 := by
  rcases State.has_step base hv with hold | ⟨store, hnew⟩
  · exact Nat.le_succ_of_le (h.versions v hold)
  · cases e with
    | write store' w =>
        rcases hnew with hnew | hnew
        · cases hnew
          exact Nat.le_refl _
        · cases hnew
    | put store' w =>
        rcases hnew with hnew | hnew
        · cases hnew
        · cases hnew
          exact Nat.le_refl _
    | _ => rcases hnew with hnew | hnew <;> cases hnew

theorem Inv.late_step (h : t.Inv) (e : Event V) (v : V × Stamp) (hv : (t.step base e).state.Has v)
    (hlate : v.2.origin = .plain true) : (t.step base e).state.kv.sealed = true := by
  refine State.sealed_step base _ (.inl ?_)
  rcases State.has_step base hv with hold | ⟨store, hnew⟩
  · exact h.late v hold hlate
  · cases e with
    | write store' w =>
        rcases hnew with hnew | hnew
        · cases hnew
          cases hlate
        · cases hnew
    | put store' w =>
        rcases hnew with hnew | hnew
        · cases hnew
        · cases hnew
          exact h.marked (Origin.plain.inj hlate)
    | _ => rcases hnew with hnew | hnew <;> cases hnew

theorem Inv.completed_step (h : t.Inv) (e : Event V) (store : Store) : t.completedAfter e store ≤ t.clock + 1 := by
  have hold : t.completed store ≤ t.clock + 1 := Nat.le_succ_of_le (h.completed store)
  cases e with
  | resume k =>
      rw [completedAfter]
      split
      case h_1 store' v hc =>
        split
        · refine Nat.max_le.mpr ⟨hold, Nat.le_succ_of_le (h.versions v ?_)⟩
          exact .inr ⟨_, List.mem_of_getElem? hc, rfl⟩
        · exact hold
      · exact hold
  | _ => exact hold

theorem Inv.step (h : t.Inv) (e : Event V) (hclear : t.Clear base e) : (t.step base e).Inv where
  returned := h.returned_step e hclear
  newest := h.newest_step e hclear
  versions := h.versions_step e
  late := h.late_step e
  marked hdone := State.sealed_step base _ ((Bool.or_eq_true ..).mp hdone |>.imp_left h.marked)
  completed := h.completed_step e

/-- What is not clear is returned, or stored, at once. -/
theorem clear_of_sound (e : Event V) (hs : (t.step base e).Sound) : t.Clear base e := by
  cases e with
  | read store isMine =>
      intro v hbase hblob
      have hread : t.state.kv.readSealedKV base store (fun v => isMine v.1) = some v := by
        simp [KV.readSealedKV, hblob, hbase]
      refine hs.returned (isMine, v) (List.mem_append_left _ (Option.mem_toList.mpr ?_))
      rw [hread]
      rfl
  | resume k =>
      intro c hc
      have hnewest := hs.newest c.store
      rw [versionAt, Trial.step, State.value_step, stamped, State.valueAfter_resume hc, if_pos rfl] at hnewest
      exact Nat.le_trans (completed_le_after (.resume k) _) hnewest
  | _ => trivial

end Trial

def noStores : KV Nat := ⟨fun _ => none, false⟩

/-- A store of a shape that its reader refuses. -/
def oddStore : KV Nat := ⟨fun store => if store = .invites then some (.json 0) else none, false⟩

end EncedoChat.Sealed
