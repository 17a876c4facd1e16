import EncedoChat.Lib.Run
import EncedoChat.Network.Registry

/-!
# A network once registered

Over one store, whatever is registered, imported and refreshed and whatever the clock shows. The pin is what the
registry loads, so it holds as long as every stored profile loads.
-/

namespace EncedoChat.Network

section
variable {P : Platform}

/-! ## What opening an envelope says -/

theorem envelopeOf_toJson (e : Envelope) : envelopeOf P e.toJson = .ok e := rfl

/-- A signature is read without the blanks around it. -/
theorem readEnvelope_trim (e : Envelope) : readEnvelope P ⟨e.profile, Text.trim e.sig⟩ = readEnvelope P e := by
  have hsigned : ∀ bytes profile, signed P ⟨e.profile, Text.trim e.sig⟩ bytes profile = signed P e bytes profile := by
    intro bytes profile
    rw [signed, signed, P.b64d_trim]
  simp only [readEnvelope, docOf, hsigned]

theorem checkProfile_ok {profile : OperatorProfile} {now : Int} {pinned : Option Pin} {allowExpired : Bool} :
    checkProfile profile now pinned allowExpired = .ok () ↔
      (∀ p ∈ pinned, p.rootPub = profile.rootPub ∧ p.seq ≤ profile.seq) ∧
      (allowExpired = false → now ≤ profile.expires) ∧ profile.made ≤ now + FUTURE_TOLERANCE_MS := by
  simp only [checkProfile, bind_ok, refuse_ok, exists_unit]
  constructor
  · rintro ⟨hkey, hseq, hexpired, hfuture⟩
    refine ⟨?_, ?_, by omega⟩
    · intro p hp
      refine ⟨?_, ?_⟩
      · by_contra hne
        exact hkey ⟨p, hp, hne⟩
      · by_contra hlt
        exact hseq ⟨p, hp, by omega⟩
    · intro hallow
      by_contra hlt
      exact hexpired ⟨by omega, hallow⟩
  · rintro ⟨hpin, hexpired, hfuture⟩
    refine ⟨?_, ?_, ?_, by omega⟩
    · rintro ⟨p, hp, hne⟩
      exact hne (hpin p hp).1
    · rintro ⟨p, hp, hlt⟩
      have := (hpin p hp).2
      omega
    · rintro ⟨hlt, hallow⟩
      have := hexpired hallow
      omega

/-- What an opened envelope is: its profile reads under its own signature, and passes the pin and the dates. -/
theorem openEnvelope_ok {raw : Json} {now : Int} {pinned : Option Pin} {allowExpired : Bool} {profile : OperatorProfile}
    {env : Envelope} :
    openEnvelope P raw now pinned allowExpired = .ok (profile, env) ↔
      ∃ e, envelopeOf P raw = .ok e ∧ readEnvelope P e = .ok profile ∧
        checkProfile profile now pinned allowExpired = .ok () ∧ env = ⟨e.profile, Text.trim e.sig⟩ := by
  simp only [openEnvelope, bind_ok, exists_unit, pure, Except.pure, Except.ok.injEq, Prod.mk.injEq]
  constructor
  · rintro ⟨e, he, p, hread, hcheck, rfl, rfl⟩
    exact ⟨e, he, hread, hcheck, rfl⟩
  · rintro ⟨e, he, hread, hcheck, rfl⟩
    exact ⟨e, he, profile, hread, hcheck, rfl, rfl⟩

theorem read_opened {raw : Json} {now : Int} {pinned : Option Pin} {allowExpired : Bool} {profile : OperatorProfile}
    {env : Envelope} (h : openEnvelope P raw now pinned allowExpired = .ok (profile, env)) :
    readEnvelope P env = .ok profile := by
  obtain ⟨e, -, hread, -, rfl⟩ := openEnvelope_ok.mp h
  exact (readEnvelope_trim e).trans hread

/-- Whatever the pin and the dates let through, it is the same profile. -/
theorem open_unique {raw : Json} {now now' : Int} {pinned pinned' : Option Pin} {allow allow' : Bool}
    {r r' : OperatorProfile × Envelope} (h : openEnvelope P raw now pinned allow = .ok r)
    (h' : openEnvelope P raw now' pinned' allow' = .ok r') : r = r' := by
  obtain ⟨p, env⟩ := r
  obtain ⟨p', env'⟩ := r'
  obtain ⟨e, he, hread, -, rfl⟩ := openEnvelope_ok.mp h
  obtain ⟨e', he', hread', -, rfl⟩ := openEnvelope_ok.mp h'
  cases he.symm.trans he'
  cases hread.symm.trans hread'
  rfl

theorem open_stored {e : Envelope} {now : Int} {profile : OperatorProfile} {env : Envelope} :
    openEnvelope P e.toJson now none true = .ok (profile, env) ↔
      readEnvelope P e = .ok profile ∧ profile.made ≤ now + FUTURE_TOLERANCE_MS ∧
        env = ⟨e.profile, Text.trim e.sig⟩ := by
  simp only [openEnvelope_ok, envelopeOf_toJson, Except.ok.injEq, exists_eq_left', checkProfile_ok]
  simp

/-! ## What the registry loads -/

theorem known_some {now : Int} {e r : String × _} (h : known P now e = some r) : r.1 = e.1 := by
  rw [known] at h
  split at h
  · split at h
    · cases h
      rfl
    · cases h
  · cases h

theorem loadRegistry_entries (kv : KV) (now : Int) :
    (loadRegistry P kv now).entries = kv.entries.filterMap (known P now) := by
  rw [loadRegistry, OrdMap.entries_foldl_set]
  · simp [OrdMap.empty]
  · rw [List.Nodup, List.pairwise_map]
    apply List.Pairwise.filterMap _ _ (List.pairwise_map.mp kv.nodup)
    intro a b hne ra hra rb hrb
    rw [known_some hra, known_some hrb]
    exact hne
  · intro _ _ h
    cases h

theorem get_loadRegistry {kv : KV} {now : Int} {id : String} {k : KnownNetwork} :
    (loadRegistry P kv now).get id = some k ↔ ∃ env, kv.get id = some env ∧ known P now (id, env) = some (id, k) := by
  simp only [OrdMap.get_eq_some, loadRegistry_entries, List.mem_filterMap]
  constructor
  · rintro ⟨⟨id', env⟩, hmem, hk⟩
    obtain rfl : id = id' := known_some hk
    exact ⟨env, hmem, hk⟩
  · rintro ⟨env, hmem, hk⟩
    exact ⟨_, hmem, hk⟩

/-- What is loaded is stored. -/
theorem stored_of_load {kv : KV} {now : Int} {id : String} {k : KnownNetwork}
    (h : (loadRegistry P kv now).get id = some k) :
    ∃ env, kv.get id = some env ∧ readEnvelope P env = .ok k.profile ∧ k.profile.networkId = id := by
  obtain ⟨env, hget, hk⟩ := get_loadRegistry.mp h
  rw [known] at hk
  split at hk
  · rename_i profile envelope hopen
    split at hk
    · rename_i hid
      cases hk
      exact ⟨env, hget, (open_stored.mp hopen).1, hid⟩
    · cases hk
  · cases hk

/-- What is stored is loaded, unless it is of the future. -/
theorem load_of_stored {kv : KV} {now : Int} {id : String} {env : Envelope} {profile : OperatorProfile}
    (hget : kv.get id = some env) (hread : readEnvelope P env = .ok profile) (hid : profile.networkId = id)
    (hmade : profile.made ≤ now + FUTURE_TOLERANCE_MS) :
    ∃ k, (loadRegistry P kv now).get id = some k ∧ k.profile = profile := by
  refine ⟨⟨profile, ⟨env.profile, Text.trim env.sig⟩, profile.expires < now⟩, ?_, rfl⟩
  refine get_loadRegistry.mpr ⟨env, hget, ?_⟩
  rw [known, open_stored.mpr ⟨hread, hmade, rfl⟩]
  exact if_pos hid

/-! ## The calls -/

/-- A network as it was registered. -/
structure Entry where
  id : String
  rootPub : String
  seq : Nat
  deriving DecidableEq

def OperatorProfile.entry (p : OperatorProfile) : Entry := ⟨p.networkId, p.rootPub, p.seq⟩

structure World where
  kv : KV
  /-- the refreshes whose answers are out -/
  asked : List Asked
  /-- the last reading of the clock -/
  now : Int
  /-- every network that was registered or replaced, in order -/
  registered : List Entry

inductive Call where
  | register (raw : Json) (now : Int)
  | importNetwork (raw : Json) (now : Int)
  /-- a refresh begins -/
  | refresh (id : String) (now : Int)
  /-- the answers of the `k`-th refresh are in -/
  | answers (k : Nat) (answers : Nat → Option String)
  /-- the registry is looked at -/
  | load (now : Int)

namespace World

def start (now : Int) : World := ⟨.empty, [], now, []⟩

variable (P : Platform)

/-- The reading a call goes by: a refresh goes by the one it began with. -/
def reading (w : World) : Call → Int
  | .register _ now | .importNetwork _ now | .refresh _ now | .load now => now
  | .answers k _ => (w.asked[k]?.map Asked.now).getD w.now

/-- The profile a call has put into the store. -/
def written (w : World) : Call → List OperatorProfile
  | .register raw now =>
    match (registerNetwork P w.kv raw now).1 with
    | .ok r => [r.profile]
    | .error _ => []
  | .importNetwork raw now =>
    match (importNetwork P w.kv raw now).1, openEnvelope P raw now none true with
    | .ok (_, .already), _ => []
    | .ok _, .ok r => [r.1]
    | _, _ => []
  | .answers k answers =>
    match w.asked[k]? with
    | some a =>
      match (endRefresh P w.kv a answers).1 with
      | .ok r => if r.changed then [r.profile] else []
      | .error _ => []
    | none => []
  | .refresh _ _ | .load _ => []

def stored (w : World) : Call → KV
  | .register raw now => (registerNetwork P w.kv raw now).2
  | .importNetwork raw now => (importNetwork P w.kv raw now).2
  | .answers k answers =>
    match w.asked[k]? with
    | some a => (endRefresh P w.kv a answers).2.2
    | none => w.kv
  | .refresh _ _ | .load _ => w.kv

def pending (w : World) : Call → List Asked
  | .refresh id now => w.asked ++ (askRefresh P w.kv id now).toList
  | .answers k _ => w.asked.eraseIdx k
  | .register _ _ | .importNetwork _ _ | .load _ => w.asked

def act (w : World) (c : Call) : World :=
  ⟨w.stored P c, w.pending P c, w.reading c, w.registered ++ (w.written P c).map OperatorProfile.entry⟩

/-- The pin holds: the root key of a network never changes, its sequence number never goes back, and it is loaded. -/
structure Pinned (w : World) : Prop where
  order : w.registered.Pairwise (fun a b => a.id = b.id → a.rootPub = b.rootPub ∧ a.seq ≤ b.seq)
  loads : ∀ e ∈ w.registered, ∃ k, (loadRegistry P w.kv w.now).get e.id = some k ∧
    k.profile.rootPub = e.rootPub ∧ e.seq ≤ k.profile.seq
  noted : ∀ id k, (loadRegistry P w.kv w.now).get id = some k → k.profile.entry ∈ w.registered ∧ k.profile.networkId = id

/-- No stored profile is of the future when the registry is loaded. -/
def Steady (w : World) (c : Call) : Prop :=
  ∀ e ∈ w.kv.entries, ∀ p ∈ (readEnvelope P e.2).toOption, p.made ≤ w.reading c + FUTURE_TOLERANCE_MS

/-- The network that comes in is not called `__proto__`. -/
def Plain : Call → Prop
  | .register raw now => ∀ r ∈ (openEnvelope P raw now none false).toOption, r.1.networkId ≠ "__proto__"
  | .importNetwork raw now => ∀ r ∈ (openEnvelope P raw now none true).toOption, r.1.networkId ≠ "__proto__"
  | .refresh _ _ | .answers _ _ | .load _ => True

instance (w : World) (c : Call) : Decidable (w.Steady P c) :=
  inferInstanceAs (Decidable (∀ e ∈ w.kv.entries, ∀ p ∈ (readEnvelope P e.2).toOption,
    p.made ≤ w.reading c + FUTURE_TOLERANCE_MS))

instance : (c : Call) → Decidable (Plain P c)
  | .register raw now =>
    inferInstanceAs (Decidable (∀ r ∈ (openEnvelope P raw now none false).toOption, r.1.networkId ≠ "__proto__"))
  | .importNetwork raw now =>
    inferInstanceAs (Decidable (∀ r ∈ (openEnvelope P raw now none true).toOption, r.1.networkId ≠ "__proto__"))
  | .refresh _ _ | .answers _ _ | .load _ => isTrue trivial

end World

/-! ## What a call writes -/

/-- A call writes nothing, or one profile that passes the pin of the one it replaces. -/
inductive Writes (P : Platform) (kv : KV) (now : Int) : KV → List OperatorProfile → Prop
  | nothing : Writes P kv now kv []
  | write {env : Envelope} {p : OperatorProfile} (read : readEnvelope P env = .ok p)
      (made : p.made ≤ now + FUTURE_TOLERANCE_MS) (plain : p.networkId ≠ "__proto__")
      (pin : ∀ k, (loadRegistry P kv now).get p.networkId = some k → k.profile.rootPub = p.rootPub ∧ k.profile.seq ≤ p.seq) :
      Writes P kv now (assign kv p.networkId env) [p]

theorem register_writes (kv : KV) {raw : Json} {now : Int}
    (hplain : ∀ r, openEnvelope P raw now none false = .ok r → r.1.networkId ≠ "__proto__") :
    Writes P kv now (registerNetwork P kv raw now).2 (match (registerNetwork P kv raw now).1 with
      | .ok r => [r.profile]
      | .error _ => []) := by
  rw [registerNetwork]
  cases hfirst : openEnvelope P raw now none false with
  | error why => exact .nothing
  | ok first =>
      obtain ⟨p, env⟩ := first
      have hread := read_opened hfirst
      obtain ⟨-, -, -, hcheck, -⟩ := openEnvelope_ok.mp hfirst
      have hmade := (checkProfile_ok.mp hcheck).2.2
      dsimp only [Except.toOption, Option.bind]
      cases hget : (loadRegistry P kv now).get p.networkId with
      | none =>
          refine .write hread hmade (hplain _ hfirst) ?_
          intro k hk
          cases hget.symm.trans hk
      | some k =>
          dsimp only
          cases hopen : openEnvelope P raw now (some ⟨k.profile.rootPub, k.profile.seq⟩) false with
          | error why => exact .nothing
          | ok r =>
              cases open_unique hfirst hopen
              obtain ⟨-, -, -, hcheck', -⟩ := openEnvelope_ok.mp hopen
              refine .write hread hmade (hplain _ hfirst) ?_
              intro k' hk'
              cases hget.symm.trans hk'
              exact (checkProfile_ok.mp hcheck').1 _ rfl

/-- What is registered is what the envelope opens to. -/
theorem register_profile {kv : KV} {raw : Json} {now : Int} {r : Registered}
    (h : (registerNetwork P kv raw now).1 = .ok r) :
    ∃ pinned env, openEnvelope P raw now pinned false = .ok (r.profile, env) := by
  rw [registerNetwork] at h
  split at h
  · cases h
  · rename_i profile env hr
    cases h
    split at hr
    · exact ⟨_, _, hr⟩
    · exact ⟨_, _, hr⟩

theorem import_writes {kv : KV} {raw : Json} {now : Int}
    (hplain : ∀ r, openEnvelope P raw now none true = .ok r → r.1.networkId ≠ "__proto__") :
    Writes P kv now (importNetwork P kv raw now).2
      (match (importNetwork P kv raw now).1, openEnvelope P raw now none true with
        | .ok (_, .already), _ => []
        | .ok _, .ok r => [r.1]
        | _, _ => []) := by
  rw [importNetwork]
  cases hopen : openEnvelope P raw now none true with
  | error why => exact .nothing
  | ok r =>
      obtain ⟨p, env⟩ := r
      have hread := read_opened hopen
      obtain ⟨-, -, -, hcheck, -⟩ := openEnvelope_ok.mp hopen
      have hmade := (checkProfile_ok.mp hcheck).2.2
      dsimp only
      cases hget : (loadRegistry P kv now).get p.networkId with
      | none =>
          refine .write hread hmade (hplain _ hopen) ?_
          intro k hk
          cases hget.symm.trans hk
      | some held =>
          dsimp only
          by_cases hkey : held.profile.rootPub ≠ p.rootPub
          · rw [if_pos hkey]
            exact .nothing
          · rw [if_neg hkey]
            by_cases hseq : p.seq ≤ held.profile.seq
            · rw [if_pos hseq]
              exact .nothing
            · rw [if_neg hseq]
              refine .write hread hmade (hplain _ hopen) ?_
              intro k hk
              cases hget.symm.trans hk
              exact ⟨not_not.mp hkey, by omega⟩

theorem best_mem {l : List (OperatorProfile × Envelope)} {b : OperatorProfile × Envelope} (h : best l = some b) :
    b ∈ l := by
  have hfold : ∀ (rs : List (OperatorProfile × Envelope)) (r : OperatorProfile × Envelope),
      rs.foldl (fun b a => if b.1.seq < a.1.seq then a else b) r ∈ r :: rs := by
    intro rs
    induction rs with
    | nil => simp
    | cons a rs ih =>
        intro r
        rw [List.foldl_cons]
        split
        · exact List.mem_cons_of_mem _ (ih a)
        · rcases List.mem_cons.mp (ih r) with he | he
          · rw [he]
            exact List.mem_cons_self ..
          · exact List.mem_cons_of_mem _ (List.mem_cons_of_mem _ he)
  cases l with
  | nil => cases h
  | cons r rs =>
      cases h
      exact hfold rs r

/-- An answer that counts is of the network asked about. -/
theorem heard_ok {a : Asked} {answer : Option String} {r : OperatorProfile × Envelope} (h : heard P a answer = .ok r) :
    readEnvelope P r.2 = .ok r.1 ∧ r.1.networkId = a.id := by
  cases answer with
  | none => cases h
  | some text =>
      rw [heard] at h
      split at h
      · cases h
      · rename_i r' hopen
        split at h
        · rename_i hid
          cases h
          exact ⟨read_opened hopen, hid⟩
        · cases h

theorem refresh_writes (kv : KV) {a : Asked} (answers : Nat → Option String) (hplain : a.id ≠ "__proto__") :
    Writes P kv a.now (endRefresh P kv a answers).2.2 (match (endRefresh P kv a answers).1 with
      | .ok r => if r.changed then [r.profile] else []
      | .error _ => []) := by
  rw [endRefresh]
  split
  · exact .nothing
  · rename_i b hbest
    obtain ⟨x, hx, hb⟩ := List.mem_filterMap.mp (best_mem hbest)
    obtain ⟨y, -, rfl⟩ := List.mem_map.mp hx
    obtain ⟨hread, hid⟩ : readEnvelope P b.2 = .ok b.1 ∧ b.1.networkId = a.id := by
      apply heard_ok
      cases hh : heard P a (answers y.2) with
      | error why =>
          rw [hh] at hb
          cases hb
      | ok r =>
          rw [hh] at hb
          cases hb
          rfl
    have hsame : ∀ {pinned allow p env}, openEnvelope P b.2.toJson a.now pinned allow = .ok (p, env) → p = b.1 := by
      intro pinned allow p env hopen
      obtain ⟨e, he, hread', -, -⟩ := openEnvelope_ok.mp hopen
      cases he
      cases hread.symm.trans hread'
      rfl
    split
    · have hnamed : ∀ r, openEnvelope P b.2.toJson a.now none false = .ok r → r.1.networkId ≠ "__proto__" := by
        intro r hopen
        rw [hsame hopen, hid]
        exact hplain
      have hwrites := register_writes kv hnamed
      cases hres : registerNetwork P kv b.2.toJson a.now with
      | mk res kv' =>
          rw [hres] at hwrites
          cases res with
          | error why => exact hwrites
          | ok r =>
              obtain ⟨pinned, env, hopen⟩ := register_profile (congrArg Prod.fst hres)
              dsimp only at hwrites ⊢
              rw [hsame hopen] at hwrites
              exact hwrites
    · exact .nothing

/-! ## The runs -/

namespace World

/-- Everything registered is stored under its id, with its root key and no earlier number. -/
structure Inv (P : Platform) (w : World) : Prop where
  stored : ∀ id env, w.kv.get id = some env → id ≠ "__proto__" ∧
    ∃ p, readEnvelope P env = .ok p ∧ p.networkId = id ∧ p.entry ∈ w.registered ∧ p.made ≤ w.now + FUTURE_TOLERANCE_MS
  last : ∀ e ∈ w.registered, ∃ env p, w.kv.get e.id = some env ∧ readEnvelope P env = .ok p ∧
    p.rootPub = e.rootPub ∧ e.seq ≤ p.seq
  order : w.registered.Pairwise (fun a b => a.id = b.id → a.rootPub = b.rootPub ∧ a.seq ≤ b.seq)
  asked : ∀ a ∈ w.asked, a.id ≠ "__proto__"

theorem Inv.start (P : Platform) (now : Int) : Inv P (start now) :=
  ⟨(fun _ _ h => nomatch h), (fun _ h => nomatch h), .nil, fun _ h => nomatch h⟩

theorem Inv.pins {w : World} (I : Inv P w) : Pinned P w := by
  refine ⟨I.order, ?_, ?_⟩
  · intro e he
    obtain ⟨env, p, hget, hread, hroot, hseq⟩ := I.last e he
    obtain ⟨-, p', hread', hid, -, hmade⟩ := I.stored _ _ hget
    cases hread.symm.trans hread'
    obtain ⟨k, hload, rfl⟩ := load_of_stored hget hread hid hmade
    exact ⟨k, hload, hroot, hseq⟩
  · intro id k hload
    obtain ⟨env, hget, hread, hid⟩ := stored_of_load hload
    obtain ⟨-, p, hread', -, hnoted, -⟩ := I.stored _ _ hget
    cases hread.symm.trans hread'
    exact ⟨hnoted, hid⟩

theorem get_assign {kv : KV} {id : String} (hid : id ≠ "__proto__") (env : Envelope) (id' : String) :
    (assign kv id env).get id' = if id' = id then some env else kv.get id' := by
  rw [assign, if_neg (fun h => hid h.1), OrdMap.get_set]

/-- What is stored at a reading that finds nothing of the future. -/
theorem Steady.fresh {w : World} {c : Call} (hsteady : w.Steady P c) {id : String} {env : Envelope}
    {p : OperatorProfile} (hget : w.kv.get id = some env) (hread : readEnvelope P env = .ok p) :
    p.made ≤ w.reading c + FUTURE_TOLERANCE_MS :=
  hsteady _ (OrdMap.get_eq_some.mp hget) p (by rw [hread]; rfl)

/-- One profile more, that passes the pin. -/
theorem Inv.writes {w : World} (I : Inv P w) {c : Call} (hsteady : w.Steady P c) {kv : KV} {ps : List OperatorProfile}
    {asked : List Asked} (h : Writes P w.kv (w.reading c) kv ps) (hasked : ∀ a ∈ asked, a.id ≠ "__proto__") :
    Inv P ⟨kv, asked, w.reading c, w.registered ++ ps.map OperatorProfile.entry⟩ := by
  cases h with
  | nothing =>
      rw [List.map_nil, List.append_nil]
      refine ⟨?_, I.last, I.order, hasked⟩
      intro id env hget
      obtain ⟨hplain, p, hread, hid, hnoted, -⟩ := I.stored id env hget
      exact ⟨hplain, p, hread, hid, hnoted, Steady.fresh hsteady hget hread⟩
  | @write env p hread hmade hplain hpin =>
      have hold : ∀ env' p', w.kv.get p.networkId = some env' → readEnvelope P env' = .ok p' →
          p'.rootPub = p.rootPub ∧ p'.seq ≤ p.seq := by
        intro env' p' hget' hread'
        obtain ⟨-, p₀, hread₀, hid₀, -, -⟩ := I.stored _ _ hget'
        cases hread'.symm.trans hread₀
        obtain ⟨k, hload, rfl⟩ := load_of_stored hget' hread' hid₀ (Steady.fresh hsteady hget' hread')
        exact hpin k hload
      -- the entries of this network so far agree with the one that comes
      have hentries : ∀ e ∈ w.registered, e.id = p.networkId → e.rootPub = p.rootPub ∧ e.seq ≤ p.seq := by
        intro e he hid
        obtain ⟨env', p', hget', hread', hroot', hseq'⟩ := I.last e he
        rw [hid] at hget'
        obtain ⟨hroot, hseq⟩ := hold env' p' hget' hread'
        exact ⟨hroot'.symm.trans hroot, hseq'.trans hseq⟩
      refine ⟨?_, ?_, ?_, hasked⟩
      · intro id env' hget
        rw [get_assign hplain] at hget
        split at hget
        · rename_i hid
          cases hget
          exact ⟨hid ▸ hplain, p, hread, hid.symm, List.mem_append_right _ (List.mem_singleton_self _), hmade⟩
        · obtain ⟨hplain', p', hread', hid', hnoted', -⟩ := I.stored id env' hget
          exact ⟨hplain', p', hread', hid', List.mem_append_left _ hnoted', Steady.fresh hsteady hget hread'⟩
      · intro e he
        rcases List.mem_append.mp he with he | he
        · by_cases hid : e.id = p.networkId
          · obtain ⟨hroot, hseq⟩ := hentries e he hid
            exact ⟨env, p, (get_assign hplain ..).trans (if_pos hid), hread, hroot.symm, hseq⟩
          · obtain ⟨env', p', hget', hrest⟩ := I.last e he
            exact ⟨env', p', (get_assign hplain ..).trans ((if_neg hid).trans hget'), hrest⟩
        · cases List.mem_singleton.mp he
          exact ⟨env, p, (get_assign hplain ..).trans (if_pos rfl), hread, rfl, Nat.le_refl _⟩
      · refine List.pairwise_append.mpr ⟨I.order, List.pairwise_singleton .., ?_⟩
        intro a ha b hb
        cases List.mem_singleton.mp hb
        exact hentries a ha

theorem Inv.act {w : World} (I : Inv P w) {c : Call} (hsteady : w.Steady P c) (hplain : Plain P c) : Inv P (w.act P c) := by
  have hof : ∀ {ε} {x : Except ε (OperatorProfile × Envelope)} {r}, x = .ok r → r ∈ x.toOption := by
    rintro ε x r rfl
    rfl
  cases c with
  | register raw now => exact I.writes hsteady (register_writes w.kv fun r hr => hplain r (hof hr)) I.asked
  | importNetwork raw now => exact I.writes hsteady (import_writes fun r hr => hplain r (hof hr)) I.asked
  | refresh id now =>
      refine I.writes hsteady .nothing ?_
      intro a ha
      rcases List.mem_append.mp ha with ha | ha
      · exact I.asked a ha
      · rw [askRefresh, Option.mem_toList, Option.map_eq_some_iff] at ha
        obtain ⟨k, hload, rfl⟩ := ha
        obtain ⟨env, hget, -, -⟩ := stored_of_load hload
        exact (I.stored _ _ hget).1
  | answers k answers =>
      have hasked : ∀ a ∈ w.asked.eraseIdx k, a.id ≠ "__proto__" := fun a ha => I.asked a (List.mem_of_mem_eraseIdx ha)
      cases ha : w.asked[k]? with
      | none =>
          have hwrites := I.writes hsteady .nothing hasked
          simpa [World.act, World.stored, World.written, World.pending, ha] using hwrites
      | some a =>
          have hreading : w.reading (.answers k answers) = a.now := by simp [reading, ha]
          have hrefresh := refresh_writes (P := P) w.kv answers (I.asked a (List.mem_of_getElem? ha))
          rw [← hreading] at hrefresh
          have hwrites := I.writes hsteady hrefresh hasked
          simpa [World.act, World.stored, World.written, World.pending, ha] using hwrites
  | load now => exact I.writes hsteady .nothing I.asked

/-- Whatever is registered, imported and refreshed, as long as every reading of the clock finds no stored profile of the
future and no network is called `__proto__`. -/
theorem pinned {now : Int} {w : World} (h : Reach (World.act P) (fun w c => w.Steady P c ∧ Plain P c) (start now) w) :
    Pinned P w :=
  (h.invariant (Inv.start P now) fun _ _ I hok => I.act hok.1 hok.2).pins

/-- A network called `__proto__` is registered and not stored. -/
theorem proto_lost {kv : KV} {raw : Json} {now : Int} {p : OperatorProfile} {env : Envelope}
    (hopen : openEnvelope P raw now none false = .ok (p, env)) (hid : p.networkId = "__proto__")
    (hkv : kv.has "__proto__" = false) : registerNetwork P kv raw now = (.ok ⟨p, false⟩, kv) := by
  have hnone : (loadRegistry P kv now).get p.networkId = none := by
    cases hload : (loadRegistry P kv now).get p.networkId with
    | none => rfl
    | some k =>
        obtain ⟨e, hget, -, -⟩ := stored_of_load hload
        rw [hid] at hget
        rw [OrdMap.has_of_get hget] at hkv
        cases hkv
  have hassign : assign kv p.networkId env = kv := if_pos ⟨hid, hid ▸ hkv⟩
  simp [registerNetwork, hopen, Except.toOption, hnone, hassign]

/-! ## The readings of the clock that lose a pin -/

def sampleDoc (id root : String) (seq made : Int) : Json :=
  .obj [("v", .num 1), ("networkId", .str id), ("operator", .str "Acme"), ("rootPub", .str root), ("seq", .num seq),
    ("made", .num made), ("expires", .num (made + 31536000000)),
    ("nodes", .arr [.obj [("name", .str "n1"), ("addr", .str "/dns4/n1/p2p/12D3")]]),
    ("stores", .arr [.str "https://acme"]), ("app", .obj [("origin", .str "https://acme"), ("path", .str "/")]),
    ("profileUrls", .arr [.str "https://acme"]), ("feedback", .null), ("home", .str "https://acme")]

def rootA : String := "AAAAAAAAAAAAAAAAAAAAAAAAAAAAAAAA"

def rootB : String := "BBBBBBBBBBBBBBBBBBBBBBBBBBBBBBBB"

def sampleDocs : List (String × Json) :=
  [("a1", sampleDoc "acme" rootA 1 300000), ("a2", sampleDoc "acme" rootA 2 600000),
    ("b0", sampleDoc "acme" rootB 0 (-3600000))]

/-- A profile is named by its text, a signature is the key and what it signs. -/
def samplePlatform : Platform where
  atob s := some (s.toList.map (fun c => UInt8.ofNat c.toNat))
  btoa b := String.ofList (b.map (fun x => Char.ofNat x.toNat))
  parse _ := none
  parseBytes b := sampleDocs.lookup (String.ofList (b.map (fun x => Char.ofNat x.toNat)))
  url s := .ok ⟨"https:", "acme", "", "", "/", "", "", s, s⟩
  numText _ := ""
  verify sig msg pub := sig = pub ++ msg

def sampleEnvelope (root profile : String) : Json := (Envelope.mk profile (root ++ profile)).toJson

theorem renewed_pinned :
    Pinned samplePlatform ([Call.register (sampleEnvelope rootA "a1") 0, .importNetwork (sampleEnvelope rootA "a2") 60000,
      .refresh "acme" 120000, .answers 0 (fun _ => none), .load 0].foldl (World.act samplePlatform) (start 0)) :=
  pinned (Admits.reach .start (by decide +kernel))

/-- The clock goes back an hour, the profile held is of the future, and another key takes its place. -/
theorem unpinned : ¬ ∀ w, Reach (World.act samplePlatform) (fun _ _ => True) (start 0) w → Pinned samplePlatform w := by
  intro h
  have hreach : Reach (World.act samplePlatform) (fun _ _ => True) (start 0)
      ([Call.register (sampleEnvelope rootA "a1") 0, .register (sampleEnvelope rootB "b0") (-3600000)].foldl
        (World.act samplePlatform) (start 0)) := .step _ (.step _ .start trivial) trivial
  have hentries : ([Call.register (sampleEnvelope rootA "a1") 0, .register (sampleEnvelope rootB "b0") (-3600000)].foldl
      (World.act samplePlatform) (start 0)).registered = [⟨"acme", rootA, 1⟩, ⟨"acme", rootB, 0⟩] := by decide +kernel
  have horder := (h _ hreach).order
  rw [hentries, List.pairwise_pair] at horder
  exact absurd (horder rfl).1 (by decide)

end World

end

end EncedoChat.Network
