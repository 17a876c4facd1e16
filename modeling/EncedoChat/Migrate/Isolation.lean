import EncedoChat.Network.Pinning
import EncedoChat.Migrate.Bundle

/-!
# What an import may touch

An import that throws should leave the store as it was, and one that goes through should touch nothing of another
profile and no pinned network. Both hang on what the file says: its records are written under any key of the
application, and its network is taken in before its name is compared.
-/

namespace EncedoChat.Migrate

open Network (Platform KV Envelope OperatorProfile KnownNetwork openEnvelope loadRegistry readEnvelope assign)

variable {B : Browser} {S S' : Store} {b : Bundle} {now : Int}

/-- A stored network whose profile reads under its own id. -/
def Registered (B : Browser) (R : KV) (id : String) (p : OperatorProfile) : Prop :=
  ∃ env, R.get id = some env ∧ readEnvelope B.toPlatform env = .ok p ∧ p.networkId = id

/-- A key of the bundle's own profile, of the browser or of the bundle's network. -/
def Bundle.own (b : Bundle) (k : String) : Prop :=
  k = identityKey b.name ∨ k = softBindingKey b.name ∨ ownedBy k b.kid (b.storagePrefix.getD "") = true ∨
    k ∈ BROWSER_KEYS ∨ ∃ n ∈ b.net, k = nodesKey n.id ∨ k = transportKey n.id

/-- The networks but that of the bundle stay as they are, and every registered one stays under its key. -/
structure Keeps (B : Browser) (b : Bundle) (R R' : KV) : Prop where
  others : ∀ id, (∀ n ∈ b.net, n.id ≠ id) → R'.get id = R.get id
  pinned : ∀ id p, Registered B R id p → ∃ p', Registered B R' id p' ∧ p'.rootPub = p.rootPub ∧ p.seq ≤ p'.seq

/-- The store is as it was. -/
structure Untouched (B : Browser) (S S' : Store) : Prop where
  keys : ∀ k, k ≠ REGISTRY_KEY → S'.get k = S.get k
  networks : ∀ id, (registryOf B S').get id = (registryOf B S).get id

/-- Only what is the bundle's own has changed. -/
structure Confined (B : Browser) (b : Bundle) (S S' : Store) : Prop where
  keys : ∀ k, k ≠ REGISTRY_KEY → ¬b.own k → S'.get k = S.get k
  networks : Keeps B b (registryOf B S) (registryOf B S')

def Isolated (B : Browser) (S : Store) (b : Bundle) (now : Int) : Prop :=
  match applyBundle B S b now with
  | (.error _, S') => Untouched B S S'
  | (.ok _, S') => Confined B b S S'

/-! ## What the file must say -/

/-- The profile or its identity is here, or its prefix is none. -/
def Refused (S : Store) (b : Bundle) : Prop :=
  S.has (identityKey b.name) = true ∨ (S.keys ≠ [] ∧ badPrefix (b.storagePrefix.getD "") = true) ∨
    ∃ k ∈ S.keys, ownedBy k b.kid (b.storagePrefix.getD "") = true

/-- The profile in the envelope of a bundle's network, whatever its date. -/
def Opens (B : Browser) (n : BundleNet) (now : Int) (p : OperatorProfile) : Prop :=
  ∃ env, openEnvelope B.toPlatform n.envelope now none true = .ok (p, env)

/-- The network that the registry loads. -/
def held (B : Browser) (S : Store) (now : Int) (id : String) : Option KnownNetwork :=
  (loadRegistry B.toPlatform (registryOf B S) now).get id

/-- The network of the bundle is the one it names, and is not held under another key. -/
def Taken (B : Browser) (S : Store) (b : Bundle) (now : Int) : Prop :=
  ∀ n ∈ b.net, ∃ p, Opens B n now p ∧ p.networkId = n.id ∧ ∀ k ∈ held B S now n.id, k.profile.rootPub = p.rootPub

structure Fits (B : Browser) (S : Store) (b : Bundle) (now : Int) : Prop where
  /-- a profile of another network than the bundle names is not taken in: it is held under another key or at least as
  new, or its id is no name -/
  named : ∀ n ∈ b.net, ∀ p, Opens B n now p → p.networkId ≠ n.id →
    (∃ k ∈ held B S now p.networkId, k.profile.rootPub ≠ p.rootPub ∨ p.seq ≤ k.profile.seq) ∨
      p.networkId = "__proto__" ∧ (registryOf B S).has p.networkId = false
  /-- a record that may travel is the bundle's own, or is here -/
  keys : Taken B S b now → ∀ k v, b.keys.get k = some v → portable k = true → k ≠ REGISTRY_KEY →
    b.own k ∨ S.get k = some v
  /-- a text that the bundle has for the registry keeps the networks -/
  registry : Taken B S b now → ∀ v, b.keys.get REGISTRY_KEY = some v →
    Keeps B b (registryOf B S) (readRegistry B (some v))
  /-- a network that is registered and not loaded, being of the future, is under the same key and not newer -/
  future : Taken B S b now → b.keys.get REGISTRY_KEY = none → ∀ n ∈ b.net, ∀ p, Opens B n now p →
    (∃ k ∈ held B S now n.id, p.seq ≤ k.profile.seq) ∨
      ∀ p₀, Registered B (registryOf B S) n.id p₀ → p₀.rootPub = p.rootPub ∧ p₀.seq ≤ p.seq

/-! ## What is written -/

theorem writeKeys_snoc (S : Store) (es : List (String × Stored)) (e : String × Stored) :
    (writeKeys S (es ++ [e])).2 =
      if portable e.1 = true then (writeKeys S es).2.set e.1 e.2 else (writeKeys S es).2 := by
  rw [writeKeys, List.foldl_append, List.foldl_cons, List.foldl_nil]
  split <;> rfl

/-- A record that is not among those written stays. -/
theorem writeKeys_stay (S : Store) {es : List (String × Stored)} {k : String} (h : ∀ e ∈ es, e.1 = k → portable k = false) :
    (writeKeys S es).2.get k = S.get k := by
  induction es using List.reverseRecOn with
  | nil => rfl
  | append_singleton es e ih =>
      have hes := ih fun f hf => h f (List.mem_append_left _ hf)
      rw [writeKeys_snoc]
      split
      · rename_i hport
        have hne : k ≠ e.1 := by
          rintro rfl
          cases hport.symm.trans (h e (List.mem_append_right _ (List.mem_singleton_self _)) rfl)
        rw [OrdMap.get_set_ne _ _ hne, hes]
      · exact hes

theorem writeKeys_write (S : Store) {es : List (String × Stored)} (hnd : (es.map Prod.fst).Nodup) {k : String} {v : Stored}
    (hin : (k, v) ∈ es) (hport : portable k = true) : (writeKeys S es).2.get k = some v := by
  induction es using List.reverseRecOn with
  | nil => cases hin
  | append_singleton es e ih =>
      rw [List.map_append, List.nodup_append] at hnd
      rw [writeKeys_snoc]
      obtain hin | hin := List.mem_append.mp hin
      · have hne : k ≠ e.1 := hnd.2.2 k (List.mem_map_of_mem hin) e.1 (List.mem_singleton_self _)
        split
        · rw [OrdMap.get_set_ne _ _ hne]
          exact ih hnd.1 hin
        · exact ih hnd.1 hin
      · obtain rfl := List.mem_singleton.mp hin
        rw [if_pos hport]
        exact OrdMap.get_set_self ..

/-- The records of a bundle, over what is there. -/
theorem get_writeKeys (S : Store) (m : OrdMap String Stored) (k : String) : (writeKeys S m.entries).2.get k =
    if portable k = true then (m.get k).or (S.get k) else S.get k := by
  by_cases hport : portable k = true
  · rw [if_pos hport]
    cases hk : m.get k with
    | some v => exact writeKeys_write S m.nodup (OrdMap.get_eq_some.mp hk) hport
    | none =>
        refine writeKeys_stay S fun e he hek => absurd ?_ (OrdMap.get_eq_none.mp hk)
        exact hek ▸ List.mem_map_of_mem he
  · rw [if_neg hport]
    exact writeKeys_stay S fun _ _ _ => Bool.eq_false_of_not_eq_true hport

theorem portable_registry : portable REGISTRY_KEY = true := by decide

/-! ## The network of a bundle -/

/-- What taking in a network comes to. -/
theorem import_cases (B : Browser) (S : Store) (raw : Json) (now : Int) :
    ((∀ r, openEnvelope B.toPlatform raw now none true ≠ .ok r) ∧ ∃ why, importNetwork B S raw now = (.error why, S)) ∨
    ∃ p env, openEnvelope B.toPlatform raw now none true = .ok (p, env) ∧
      ((∃ k ∈ held B S now p.networkId, k.profile.rootPub ≠ p.rootPub ∧
          importNetwork B S raw now = (.error ⟨.key, none⟩, S)) ∨
        (∃ k ∈ held B S now p.networkId, k.profile.rootPub = p.rootPub ∧ p.seq ≤ k.profile.seq ∧
          importNetwork B S raw now = (.ok p.networkId, S)) ∨
        (∀ k ∈ held B S now p.networkId, k.profile.rootPub = p.rootPub ∧ k.profile.seq < p.seq) ∧
          importNetwork B S raw now =
            (.ok p.networkId, S.set REGISTRY_KEY (.networks (assign (registryOf B S) p.networkId env)))) := by
  rw [importNetwork, Network.importNetwork]
  cases hopen : openEnvelope B.toPlatform raw now none true with
  | error why => exact .inl ⟨fun _ h => (by cases h), why, rfl⟩
  | ok r =>
      obtain ⟨p, env⟩ := r
      refine .inr ⟨p, env, rfl, ?_⟩
      dsimp only
      cases hheld : (loadRegistry B.toPlatform (registryOf B S) now).get p.networkId with
      | none => exact .inr (.inr ⟨fun k hk => (by cases hk.symm.trans hheld), rfl⟩)
      | some k =>
          dsimp only
          by_cases hkey : k.profile.rootPub ≠ p.rootPub
          · rw [if_pos hkey]
            exact .inl ⟨k, hheld, hkey, rfl⟩
          · rw [if_neg hkey]
            by_cases hseq : p.seq ≤ k.profile.seq
            · rw [if_pos hseq]
              exact .inr (.inl ⟨k, hheld, not_not.mp hkey, hseq, rfl⟩)
            · rw [if_neg hseq]
              refine .inr (.inr ⟨fun k' hk' => ?_, rfl⟩)
              obtain rfl := Option.some.inj (hk'.symm.trans hheld)
              exact ⟨not_not.mp hkey, not_le.mp hseq⟩

theorem Opens.unique {n : BundleNet} {p p' : OperatorProfile} (h : Opens B n now p) (h' : Opens B n now p') : p = p' := by
  obtain ⟨env, hp⟩ := h
  obtain ⟨env', hp'⟩ := h'
  exact congrArg Prod.fst (Network.open_unique hp hp')

theorem Keeps.refl (R : KV) : Keeps B b R R := ⟨fun _ _ => rfl, fun _ p hp => ⟨p, hp, rfl, Nat.le_refl _⟩⟩

theorem get_assign (R : KV) (id : String) (env : Envelope) : assign R id env = R ∧ R.has id = false ∧ id = "__proto__" ∨
    ∀ id', (assign R id env).get id' = if id' = id then some env else R.get id' := by
  rw [assign]
  split
  · rename_i h
    exact .inl ⟨rfl, h.2, h.1⟩
  · exact .inr fun id' => OrdMap.get_set ..

/-- A network that is written keeps the others, and itself if it stays under its key. -/
theorem keeps_assign {R : KV} {n : BundleNet} (hn : b.net = some n) {p : OperatorProfile} {env : Envelope}
    (hread : readEnvelope B.toPlatform env = .ok p) (hid : p.networkId = n.id) :
    Keeps B b R (assign R n.id env) ↔ ∀ p₀, Registered B R n.id p₀ → p₀.rootPub = p.rootPub ∧ p₀.seq ≤ p.seq := by
  obtain ⟨heq, hnone, -⟩ | hget := get_assign R n.id env
  · rw [heq]
    refine ⟨fun _ p₀ hp₀ => ?_, fun _ => .refl R⟩
    obtain ⟨env₀, hget, -⟩ := hp₀
    cases (OrdMap.has_of_get hget).symm.trans hnone
  · constructor
    · intro hkeeps p₀ hp₀
      obtain ⟨p', ⟨env', hget', hread', -⟩, hkey, hseq⟩ := hkeeps.pinned n.id p₀ hp₀
      rw [hget, if_pos rfl] at hget'
      cases hget'
      cases hread.symm.trans hread'
      exact ⟨hkey.symm, hseq⟩
    · intro hp
      refine ⟨fun id hne => ?_, fun id p₀ hp₀ => ?_⟩
      · rw [hget, if_neg fun heq => hne n hn heq.symm]
      · by_cases hsame : id = n.id
        · obtain ⟨hkey, hseq⟩ := hp p₀ (hsame ▸ hp₀)
          refine ⟨p, ⟨env, ?_, hread, hid.trans hsame.symm⟩, hkey.symm, hseq⟩
          rw [hget, if_pos hsame]
        · obtain ⟨env₀, hget₀, hrest⟩ := hp₀
          refine ⟨p₀, ⟨env₀, ?_, hrest⟩, rfl, Nat.le_refl _⟩
          rw [hget, if_neg hsame]
          exact hget₀

/-- A network that is taken in anew has not been there as it is now. -/
theorem assign_changes {R : KV} {p : OperatorProfile} {env : Envelope} {raw : Json}
    (hopen : openEnvelope B.toPlatform raw now none true = .ok (p, env))
    (hnew : ∀ k ∈ (loadRegistry B.toPlatform R now).get p.networkId, k.profile.rootPub = p.rootPub ∧ k.profile.seq < p.seq)
    (hname : ¬(p.networkId = "__proto__" ∧ R.has p.networkId = false)) :
    (assign R p.networkId env).get p.networkId ≠ R.get p.networkId := by
  obtain ⟨-, hnone, hproto⟩ | hget := get_assign R p.networkId env
  · exact absurd ⟨hproto, hnone⟩ hname
  · rw [hget, if_pos rfl]
    intro hsame
    obtain ⟨-, -, -, hcheck, -⟩ := Network.openEnvelope_ok.mp hopen
    obtain ⟨k, hload, hk⟩ := Network.load_of_stored hsame.symm (Network.read_opened hopen) rfl
      (Network.checkProfile_ok.mp hcheck).2.2
    have hlt := (hnew k hload).2
    rw [hk] at hlt
    exact absurd hlt (lt_irrefl _)

/-! ## The import -/

theorem registryOf_set (S : Store) (kv : KV) : registryOf B (S.set REGISTRY_KEY (.networks kv)) = kv := by
  rw [registryOf, OrdMap.get_set_self]
  rfl

theorem Untouched.rfl : Untouched B S S := ⟨fun _ _ => .refl _, fun _ => .refl _⟩

theorem applyBundle_refused (h : Refused S b) : ∃ e, applyBundle B S b now = (.error e, S) := by
  rw [applyBundle, conflictsWith]
  by_cases hhas : S.has (identityKey b.name) = true
  · rw [if_pos hhas]
    exact ⟨_, rfl⟩
  · rw [if_neg hhas, identityHere]
    dsimp only
    by_cases hbad : S.keys ≠ [] ∧ badPrefix (b.storagePrefix.getD "") = true
    · rw [refuse, if_pos hbad]
      exact ⟨_, rfl⟩
    · obtain h | h | ⟨k, hk, howned⟩ := h
      · exact absurd h hhas
      · exact absurd h hbad
      · rw [refuse, if_neg hbad]
        have hany : (S.keys.any fun k => ownedBy k b.kid (b.storagePrefix.getD "")) = true := List.any_eq_true.mpr ⟨k, hk, howned⟩
        exact ⟨"this identity is already here under another name", by simp [bind, Except.bind, pure, Except.pure, hany]⟩

theorem applyBundle_free (h : ¬Refused S b) : applyBundle B S b now =
    match takeNetwork B S b.net now with
    | (.error e, S₁) => (.error e, S₁)
    | (.ok (), S₁) => (.ok (writeKeys S₁ b.keys.entries).1, (writeKeys S₁ b.keys.entries).2) := by
  have hhas : ¬S.has (identityKey b.name) = true := fun h' => h (.inl h')
  have hbad : ¬(S.keys ≠ [] ∧ badPrefix (b.storagePrefix.getD "") = true) := fun h' => h (.inr (.inl h'))
  have hany : (S.keys.any fun k => ownedBy k b.kid (b.storagePrefix.getD "")) = false := by
    rw [List.any_eq_false]
    exact fun k hk howned => h (.inr (.inr ⟨k, hk, howned⟩))
  have hhere : identityHere S b = .ok false := by
    rw [identityHere, refuse, if_neg hbad, hany]
    rfl
  rcases hnet : takeNetwork B S b.net now with ⟨_ | _, S₁⟩ <;>
    simp only [applyBundle, conflictsWith, if_neg hhas, hhere, hnet]

/-- What is written changes only what is the bundle's own, exactly where its records do. -/
theorem confined_iff {S₁ : Store} (hsame : ∀ k, k ≠ REGISTRY_KEY → S₁.get k = S.get k) :
    Confined B b S (writeKeys S₁ b.keys.entries).2 ↔
      (∀ k v, b.keys.get k = some v → portable k = true → k ≠ REGISTRY_KEY → b.own k ∨ S.get k = some v) ∧
      (∀ v, b.keys.get REGISTRY_KEY = some v → Keeps B b (registryOf B S) (readRegistry B (some v))) ∧
      (b.keys.get REGISTRY_KEY = none → Keeps B b (registryOf B S) (registryOf B S₁)) := by
  have hreg : registryOf B (writeKeys S₁ b.keys.entries).2 =
      readRegistry B ((b.keys.get REGISTRY_KEY).or (S₁.get REGISTRY_KEY)) := by
    rw [registryOf, get_writeKeys, if_pos portable_registry]
  constructor
  · intro h
    refine ⟨fun k v hk hport hne => ?_, fun v hv => ?_, fun hnone => ?_⟩
    · by_cases hown : b.own k
      · exact .inl hown
      · have hstay := h.keys k hne hown
        rw [get_writeKeys, if_pos hport, hk] at hstay
        exact .inr hstay.symm
    · have hkeeps := h.networks
      rw [hreg, hv] at hkeeps
      exact hkeeps
    · have hkeeps := h.networks
      rw [hreg, hnone] at hkeeps
      exact hkeeps
  · rintro ⟨hkeys, htext, hnone⟩
    refine ⟨fun k hne hown => ?_, ?_⟩
    · rw [get_writeKeys, hsame k hne]
      split
      · rename_i hport
        cases hk : b.keys.get k with
        | none => rfl
        | some v => exact ((hkeys k v hk hport hne).resolve_left hown).symm
      · rfl
    · rw [hreg]
      cases hv : b.keys.get REGISTRY_KEY with
      | none => exact hnone hv
      | some v => exact htext v hv

/-- An import is isolated exactly where it is refused or the file fits. -/
theorem isolated_iff : Isolated B S b now ↔ Refused S b ∨ Fits B S b now := by
  by_cases hrefused : Refused S b
  · obtain ⟨e, he⟩ : ∃ e, applyBundle B S b now = (.error e, S) := applyBundle_refused hrefused
    rw [Isolated, he]
    exact ⟨fun _ => .inl hrefused, fun _ => .rfl⟩
  · rw [Isolated, applyBundle_free hrefused, or_iff_right hrefused]
    cases hnet : b.net with
    | none =>
        have hno : ∀ n, n ∉ b.net := fun n hn => by cases hn.symm.trans hnet
        have htaken : Taken B S b now := fun n hn => absurd hn (hno n)
        rw [takeNetwork]
        dsimp only
        rw [confined_iff fun _ _ => rfl]
        constructor
        · rintro ⟨hkeys, htext, -⟩
          exact ⟨fun n hn => absurd hn (hno n), fun _ => hkeys, fun _ => htext, fun _ _ n hn => absurd hn (hno n)⟩
        · intro hfits
          exact ⟨hfits.keys htaken, hfits.registry htaken, fun _ => .refl _⟩
    | some n =>
        have hmem : ∀ m, m ∈ b.net ↔ m = n := fun m => by
          rw [hnet, Option.mem_some_iff, eq_comm]
        rw [takeNetwork]
        obtain ⟨hshut, why, heq⟩ | ⟨p, env, hopen, ⟨k, hk, hkey, heq⟩ | ⟨k, hk, hkey, hseq, heq⟩ | ⟨hnew, heq⟩⟩ :=
          import_cases B S n.envelope now <;> rw [heq] <;> dsimp only
        · -- it does not open
          have hnot : ¬Taken B S b now := fun htaken => by
            obtain ⟨p, ⟨env, hopen⟩, -⟩ := htaken n ((hmem n).mpr rfl)
            exact hshut _ hopen
          refine ⟨fun _ => ⟨fun m hm p hp => ?_, fun h => absurd h hnot, fun h => absurd h hnot, fun h => absurd h hnot⟩,
            fun _ => .rfl⟩
          obtain rfl := (hmem m).mp hm
          obtain ⟨env, hopen⟩ := hp
          exact absurd hopen (hshut _)
        · -- it is held under another key
          have hopens : Opens B n now p := ⟨env, hopen⟩
          have hnot : ¬Taken B S b now := fun htaken => by
            obtain ⟨p', hp', hid, hall⟩ := htaken n ((hmem n).mpr rfl)
            obtain rfl := hopens.unique hp'
            exact hkey (hall k (hid ▸ hk))
          refine ⟨fun _ => ⟨fun m hm p' hp' _ => ?_, fun h => absurd h hnot, fun h => absurd h hnot, fun h => absurd h hnot⟩,
            fun _ => .rfl⟩
          obtain rfl := (hmem m).mp hm
          obtain rfl := hopens.unique hp'
          exact .inl ⟨k, hk, .inl hkey⟩
        · -- it is held already
          have hopens : Opens B n now p := ⟨env, hopen⟩
          by_cases hid : p.networkId ≠ n.id
          · rw [if_pos hid]
            have hnot : ¬Taken B S b now := fun htaken => by
              obtain ⟨p', hp', hid', -⟩ := htaken n ((hmem n).mpr rfl)
              obtain rfl := hopens.unique hp'
              exact hid hid'
            refine ⟨fun _ => ⟨fun m hm p' hp' _ => ?_, fun h => absurd h hnot, fun h => absurd h hnot,
              fun h => absurd h hnot⟩, fun _ => .rfl⟩
            obtain rfl := (hmem m).mp hm
            obtain rfl := hopens.unique hp'
            exact .inl ⟨k, hk, .inr hseq⟩
          · rw [if_neg hid]
            have hid := not_not.mp hid
            have htaken : Taken B S b now := fun m hm => by
              obtain rfl := (hmem m).mp hm
              refine ⟨p, hopens, hid, fun k' hk' => ?_⟩
              rw [← hid] at hk'
              obtain rfl := Option.some.inj (hk'.symm.trans hk)
              exact hkey
            dsimp only
            rw [confined_iff fun _ _ => rfl]
            constructor
            · rintro ⟨hkeys, htext, -⟩
              refine ⟨fun m hm p' hp' hne => ?_, fun _ => hkeys, fun _ => htext, fun _ _ m hm p' hp' => ?_⟩
              · obtain rfl := (hmem m).mp hm
                obtain rfl := hopens.unique hp'
                exact absurd hid hne
              · obtain rfl := (hmem m).mp hm
                obtain rfl := hopens.unique hp'
                exact .inl ⟨k, hid ▸ hk, hseq⟩
            · intro hfits
              exact ⟨hfits.keys htaken, hfits.registry htaken, fun _ => .refl _⟩
        · -- it is written
          have hopens : Opens B n now p := ⟨env, hopen⟩
          by_cases hid : p.networkId ≠ n.id
          · rw [if_pos hid]
            have hnot : ¬Taken B S b now := fun htaken => by
              obtain ⟨p', hp', hid', -⟩ := htaken n ((hmem n).mpr rfl)
              obtain rfl := hopens.unique hp'
              exact hid hid'
            constructor
            · intro hsame
              refine ⟨fun m hm p' hp' _ => ?_, fun h => absurd h hnot, fun h => absurd h hnot, fun h => absurd h hnot⟩
              obtain rfl := (hmem m).mp hm
              obtain rfl := hopens.unique hp'
              refine .inr ?_
              by_contra hname
              refine assign_changes hopen hnew hname ?_
              rw [← hsame.networks p.networkId, registryOf_set]
            · intro hfits
              obtain ⟨k, hk, hkept⟩ | ⟨hproto, hnone⟩ := hfits.named n ((hmem n).mpr rfl) p hopens hid
              · obtain ⟨hkey, hseq⟩ := hnew k hk
                obtain hne | hle := hkept
                · exact absurd hkey hne
                · exact absurd hle (not_le.mpr hseq)
              · refine ⟨fun k hk => OrdMap.get_set_ne _ _ hk, fun id => ?_⟩
                rw [registryOf_set, assign, if_pos ⟨hproto, hproto ▸ hnone⟩]
          · rw [if_neg hid]
            have hid := not_not.mp hid
            have htaken : Taken B S b now := fun m hm => by
              obtain rfl := (hmem m).mp hm
              exact ⟨p, hopens, hid, fun k hk => (hnew k (hid.symm ▸ hk)).1⟩
            dsimp only
            rw [confined_iff fun k hk => OrdMap.get_set_ne _ _ hk, registryOf_set, hid,
              keeps_assign hnet (Network.read_opened hopen) hid]
            constructor
            · rintro ⟨hkeys, htext, hpin⟩
              refine ⟨fun m hm p' hp' hne => ?_, fun _ => hkeys, fun _ => htext, fun _ hnone m hm p' hp' => ?_⟩
              · obtain rfl := (hmem m).mp hm
                obtain rfl := hopens.unique hp'
                exact absurd hid hne
              · obtain rfl := (hmem m).mp hm
                obtain rfl := hopens.unique hp'
                exact .inr (hpin hnone)
            · intro hfits
              refine ⟨hfits.keys htaken, hfits.registry htaken, fun hnone => ?_⟩
              obtain ⟨k, hk, hle⟩ | hpin := hfits.future htaken hnone n ((hmem n).mpr rfl) p hopens
              · exact absurd hle (not_le.mpr (hnew k (hid.symm ▸ hk)).2)
              · exact hpin

/-! ## The round trip -/

/-- What came of an import are the records, and the network beside them. -/
structure Restores (records : OrdMap String Stored) (b : Bundle) (r : Except String Nat × Store) : Prop where
  done : ∃ n, r.1 = .ok n
  keys : ∀ k v, records.get k = some v → r.2.get k = some v
  only : ∀ k, k ≠ REGISTRY_KEY ∨ b.net = none → records.get k = none → r.2.get k = none

theorem collect_ok {name kid storagePrefix : String} {deviceOnly : List String} {keys : OrdMap String Stored}
    (h : collectProfile S name kid storagePrefix deviceOnly = .ok keys) :
    keys = S.filter fun k _ => selected S name kid storagePrefix deviceOnly k := by
  simp only [collectProfile, bind_ok, exists_unit, pure, Except.pure, Except.ok.injEq] at h
  exact h.2.symm

/-- The bundle of an export has the records that are selected. -/
theorem export_ok {name kid storagePrefix : String} {made : Int} {deviceOnly : List String}
    (h : exportBundle B S name kid made storagePrefix deviceOnly = .ok b) :
    collectProfile S name kid storagePrefix deviceOnly = .ok b.keys := by
  simp only [exportBundle, bind_ok, exists_unit, pure, Except.pure, Except.ok.injEq] at h
  obtain ⟨keys, hkeys, -, net, -, rfl⟩ := h
  exact hkeys

theorem not_refused_empty (b : Bundle) : ¬Refused (.empty : Store) b := by
  rintro (h | ⟨h, -⟩ | ⟨k, h, -⟩)
  · cases h
  · exact h rfl
  · cases h

/-- An empty store takes in whatever network opens. -/
theorem takeNetwork_empty (B : Browser) (n : BundleNet) (now : Int) :
    (∃ S₁, takeNetwork B .empty (some n) now = (.ok (), S₁) ∧ ∀ k, k ≠ REGISTRY_KEY → S₁.get k = none) ∧
        (∃ p, Opens B n now p ∧ p.networkId = n.id) ∨
      (∃ e S₁, takeNetwork B .empty (some n) now = (.error e, S₁)) ∧ ¬∃ p, Opens B n now p ∧ p.networkId = n.id := by
  rw [takeNetwork]
  obtain ⟨hshut, why, heq⟩ | ⟨p, env, hopen, ⟨k, hk, -⟩ | ⟨k, hk, -⟩ | ⟨-, heq⟩⟩ := import_cases B .empty n.envelope now
  · rw [heq]
    exact .inr ⟨⟨_, _, rfl⟩, fun ⟨p, ⟨env, hopen⟩, _⟩ => hshut _ hopen⟩
  · cases hk
  · cases hk
  · rw [heq]
    dsimp only
    by_cases hid : p.networkId ≠ n.id
    · rw [if_pos hid]
      refine .inr ⟨⟨_, _, rfl⟩, fun ⟨p', hp', hid'⟩ => hid ?_⟩
      rw [Opens.unique ⟨env, hopen⟩ hp', hid']
    · rw [if_neg hid]
      exact .inl ⟨⟨_, rfl, fun k hk => OrdMap.get_set_ne _ _ hk⟩, p, ⟨env, hopen⟩, not_not.mp hid⟩

/-- Written into an empty store, the records of an export are there exactly where its network opens. -/
theorem restores_iff {keys : OrdMap String Stored} (hkeys : b.keys = keys)
    (hport : ∀ k v, keys.get k = some v → portable k = true) :
    Restores keys b (applyBundle B .empty b now) ↔ ∀ n ∈ b.net, ∃ p, Opens B n now p ∧ p.networkId = n.id := by
  have hwrite : ∀ S₁ : Store, (∀ k, k ≠ REGISTRY_KEY ∨ b.net = none → S₁.get k = none) →
      Restores keys b (.ok (writeKeys S₁ b.keys.entries).1, (writeKeys S₁ b.keys.entries).2) := by
    intro S₁ hS₁
    refine ⟨⟨_, rfl⟩, fun k v hk => ?_, fun k hne hk => ?_⟩
    · rw [get_writeKeys, if_pos (hport k v hk), hkeys, hk]
      rfl
    · rw [get_writeKeys, hkeys, hk, hS₁ k hne]
      split <;> rfl
  rw [applyBundle_free (not_refused_empty b)]
  cases hnet : b.net with
  | none =>
      rw [takeNetwork]
      refine ⟨fun _ n hn => (by cases hn), fun _ => ?_⟩
      exact hwrite .empty fun _ _ => rfl
  | some n =>
      obtain ⟨⟨S₁, heq, hS₁⟩, hopens⟩ | ⟨⟨e, S₁, heq⟩, hshut⟩ := takeNetwork_empty B n now
      · rw [heq]
        refine ⟨fun _ m hm => ?_, fun _ => ?_⟩
        · obtain rfl := Option.some.inj hm
          exact hopens
        · refine hwrite S₁ fun k hk => ?_
          obtain hk | hk := hk
          · exact hS₁ k hk
          · cases hk.symm.trans hnet
      · rw [heq]
        constructor
        · rintro ⟨⟨_, hdone⟩, -, -⟩
          cases hdone
        · exact fun hopens => absurd (hopens n rfl) hshut

/-- An import is isolated exactly where it is refused or its file fits, and an export is restored exactly where its
network opens. -/
theorem isolated_and_restored {Z : Sealing} {name kid password storagePrefix : String} {made : Int} {deviceOnly : List String} {r : Nat}
    {file : Z.File} {own : Bundle} (B : Browser) (here there : Store) (b : Bundle) (now : Int)
    (hfile : exportProfile Z B here name kid password made storagePrefix deviceOnly r = .ok file)
    (hopen : openBundle Z file password = .ok own) :
    (Isolated B there b now ↔ Refused there b ∨ Fits B there b now) ∧
      ((∃ keys, collectProfile here name kid storagePrefix deviceOnly = .ok keys ∧
          Restores keys own (applyBundle B .empty own now)) ↔
        ∀ n ∈ own.net, ∃ p, Opens B n now p ∧ p.networkId = n.id) := by
  refine ⟨isolated_iff, ?_⟩
  simp only [exportProfile, bind_ok, exists_unit, pure, Except.pure, Except.ok.injEq] at hfile
  obtain ⟨bundle, hbundle, -, rfl⟩ := hfile
  rw [openBundle, Z.opens] at hopen
  obtain rfl := Except.ok.inj hopen
  have hcollect := export_ok hbundle
  have hport : ∀ k v, bundle.keys.get k = some v → portable k = true := by
    intro k v hk
    rw [collect_ok hcollect, OrdMap.get_filter] at hk
    have hsel := hk.2
    rw [selected, Bool.and_eq_true, Bool.and_eq_true] at hsel
    exact hsel.1.1
  have hiff : Restores bundle.keys bundle (applyBundle B .empty bundle now) ↔
      ∀ n ∈ bundle.net, ∃ p, Opens B n now p ∧ p.networkId = n.id := restores_iff rfl hport
  rw [← hiff]
  constructor
  · rintro ⟨keys, hkeys, hrestores⟩
    obtain rfl := Except.ok.inj (hkeys.symm.trans hcollect)
    exact hrestores
  · exact fun hrestores => ⟨bundle.keys, hcollect, hrestores⟩

/-! ## Two files -/

def sampleBrowser : Browser := { Network.World.samplePlatform with registry := fun _ => .empty }

/-- A file that holds its bundle. -/
def openSealing : Sealing where
  File := Bundle
  sealing _ b _ := b
  unsealing _ b := .ok b
  opens _ _ _ := rfl

def acmeEnvelope : Envelope := ⟨"a1", Network.World.rootA ++ "a1"⟩

def storeOf (es : List (String × String)) : Store := es.foldl (fun m e => m.set e.1 (.text e.2)) .empty

/-- Ala lives in a network of her own, and not alone in her browser. -/
def alaStore : Store :=
  (storeOf [("ec-soft-id-Ala", "{}"), ("ec-soft-net-Ala", "acme"), ("ec-nodes:acme", "[]"), ("ec-lang", "pl"),
    ("ec-idkey-swept", "1"), ("ec-soft-id-Bob", "{}")]).set REGISTRY_KEY (.networks (OrdMap.empty.set "acme" acmeEnvelope))

def alaBundle : Bundle where
  name := "Ala"
  kid := "a1b2c3d4"
  made := 1
  storagePrefix := none
  keys := alaStore.filter fun k _ => selected alaStore "Ala" "a1b2c3d4" "" [] k
  net := some ⟨"acme", acmeEnvelope.toJson⟩

theorem export_ala : exportProfile openSealing sampleBrowser alaStore "Ala" "a1b2c3d4" "secret" 1 "" [] 0 = .ok alaBundle := by
  have hcollect : collectProfile alaStore "Ala" "a1b2c3d4" "" [] = .ok alaBundle.keys := by
    rw [collectProfile, refuse, if_neg fun h => absurd h.1 (by decide)]
    rfl
  have hsealed : sealedIn alaBundle.keys "Ala" = true := by decide
  have hname : netOf alaStore "Ala" = some "acme" := by decide
  have henv : (registryOf sampleBrowser alaStore).get "acme" = some acmeEnvelope := by decide
  have hnet : bundleNet sampleBrowser alaStore "Ala" = .ok alaBundle.net := by
    rw [bundleNet, hname]
    dsimp only
    rw [henv]
    rfl
  have hbundle : exportBundle sampleBrowser alaStore "Ala" "a1b2c3d4" 1 "" [] = .ok alaBundle := by
    rw [exportBundle, hcollect, hnet]
    simp only [bind, Except.bind, hsealed]
    rfl
  rw [exportProfile, hbundle]
  rfl

theorem sample_moves : ∃ keys, collectProfile alaStore "Ala" "a1b2c3d4" "" [] = .ok keys ∧
    Restores keys alaBundle (applyBundle sampleBrowser .empty alaBundle 400000) :=
  (isolated_and_restored (Z := openSealing) sampleBrowser alaStore .empty alaBundle 400000 export_ala rfl).2.mpr fun n hn => by
    obtain rfl := Option.some.inj hn
    have hopen : (openEnvelope sampleBrowser.toPlatform acmeEnvelope.toJson 400000 none true).toOption.map
        (fun r => r.1.networkId) = some "acme" := by decide +kernel
    obtain ⟨r, hr, hid⟩ := Option.map_eq_some_iff.mp hopen
    cases h : openEnvelope sampleBrowser.toPlatform acmeEnvelope.toJson 400000 none true with
    | error e =>
        rw [h] at hr
        cases hr
    | ok r' =>
        rw [h] at hr
        obtain rfl := Option.some.inj hr
        exact ⟨r'.1, ⟨r'.2, h⟩, hid⟩

/-- A file for Ala that has a record of Bob's. -/
def doctored : Bundle where
  name := "Ala"
  kid := "a1b2c3d4"
  made := 1
  storagePrefix := none
  keys := storeOf [("ec-soft-id-Ala", "{}"), ("ec-soft-id-Bob", "{}")]
  net := none

/-- Bob's identity is written over. -/
theorem not_isolated : ¬ Isolated sampleBrowser (storeOf [("ec-soft-id-Bob", "sealed")]) doctored 0 := by
  intro h
  obtain hrefused | hfits := isolated_iff.mp h
  · have hnot : ¬Refused (storeOf [("ec-soft-id-Bob", "sealed")]) doctored := by
      unfold Refused
      decide
    exact hnot hrefused
  · have htaken : Taken sampleBrowser (storeOf [("ec-soft-id-Bob", "sealed")]) doctored 0 := fun n hn => by cases hn
    obtain hown | hsame := hfits.keys htaken "ec-soft-id-Bob" (.text "{}") rfl (by decide) (by decide)
    · have hnot : ¬doctored.own "ec-soft-id-Bob" := by
        unfold Bundle.own
        decide
      exact hnot hown
    · have hname : ((storeOf [("ec-soft-id-Bob", "sealed")]).get "ec-soft-id-Bob").map Stored.name =
          some (some "sealed") := by decide
      rw [hsame] at hname
      exact absurd hname (by decide)

end EncedoChat.Migrate
