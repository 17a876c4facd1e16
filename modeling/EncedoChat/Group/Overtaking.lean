import EncedoChat.Group.Delivery
import EncedoChat.Group.Opening

/-!
# Frames that overtake one another

With at most one walk of the chain and at most one opening with a key set aside at a time, calls of `receive` and
`open` do to the receiver what they do alone: it goes forward, opens a counter once, and loses none.
-/

namespace EncedoChat.Group

variable {S : Suite} {I : Identities}

/-- What the AEAD says of a frame under the chain's key for its counter. -/
def verdict (P : Platform S) (ck : S.Key) (n : Nat) (header ct : Bytes) : Option Bytes :=
  P.opens (S.chain.keyAt ck n) (S.aeadNonce (S.chain.keyAt ck n) (Bytes.u32be n)) header ct

/-- The keys of the counters from `a` up to `b`. -/
def between (C : KeyChain S.Key) (ck : S.Key) (a b : Nat) : List (Nat × S.Key) :=
  (List.range' a (b - a)).map fun i => (i, C.keyAt ck i)

theorem mem_between {ck : S.Key} {a b : Nat} {p : Nat × S.Key} (h : p ∈ between S.chain ck a b) :
    a ≤ p.1 ∧ p.1 < b ∧ p.2 = S.chain.keyAt ck p.1 := by
  obtain ⟨i, hi, rfl⟩ := List.mem_map.mp h
  rw [List.mem_range'_1] at hi
  exact ⟨hi.1, by omega, rfl⟩

theorem mem_between_of {ck : S.Key} {a b i : Nat} (ha : a ≤ i) (hb : i < b) :
    i ∈ (between S.chain ck a b).map Prod.fst := by
  simp only [between, List.map_map, List.mem_map, List.mem_range'_1]
  exact ⟨i, by omega, rfl⟩

theorem between_succ {ck : S.Key} {a i : Nat} (h : a ≤ i) :
    between S.chain ck a i ++ [(i, S.chain.keyAt ck i)] = between S.chain ck a (i + 1) := by
  have hlen : i + 1 - a = i - a + 1 := by omega
  rw [between, between, hlen, List.range'_concat, List.map_append]
  simp [Nat.add_sub_cancel' h]

namespace BufReceiver

variable {P : Platform S} {ck : S.Key} {r r' : BufReceiver S} {k : Nat} {t : Time}

/-- Keys set aside are in buffers of their own, other than `j`, and for counters below `bound`. -/
structure Stash (ck : S.Key) (j bound : Nat) (r : BufReceiver S) : Prop where
  held : ∀ k b t, r.skipped.get k = some (b, t) → k < bound ∧ r.mem[b]? = some (S.chain.keyAt ck k) ∧ b ≠ j
  apart : ∀ k k' b t t', r.skipped.get k = some (b, t) → r.skipped.get k' = some (b, t') → k = k'

/-- The receiver stands on the chain that starts at `ck`. -/
structure On (ck : S.Key) (r : BufReceiver S) : Prop where
  key : r.mem[r.key]? = some (S.chain.chainAt ck r.n)
  stash : Stash ck r.key r.n r

theorem On.make (c : Nat) : On ck (make (S.chain.chainAt ck c) c) where
  key := rfl
  stash := by constructor <;> intros <;> contradiction

theorem On.read_key (h : On ck r) : r.read P r.key = S.chain.chainAt ck r.n := by
  rw [read, h.key, Option.getD_some]

theorem On.read_stashed (h : On ck r) {b : Nat} (hb : r.skipped.get k = some (b, t)) :
    r.read P b = S.chain.keyAt ck k := by
  rw [read, (h.stash.held k b t hb).2.1, Option.getD_some]

/-! ## Pruning -/

theorem getElem?_wipeAged {b : Nat} {es : List (Nat × Nat × Time)} {mem : List S.Key}
    (h : ∀ e ∈ es, aged P t e.2 = true → e.2.1 ≠ b) :
    (es.foldl (fun mem e => if aged P t e.2 then mem.set e.2.1 P.zero else mem) mem)[b]? = mem[b]? := by
  induction es generalizing mem with
  | nil => rfl
  | cons e es ih =>
      rw [List.forall_mem_cons] at h
      rw [List.foldl_cons, ih h.2]
      split
      · rename_i hage
        exact List.getElem?_set_ne (h.1 hage)
      · rfl

theorem get_prune {s : Nat × Time} :
    (r.prune P t).skipped.get k = some s ↔ r.skipped.get k = some s ∧ aged P t s = false := by
  rw [prune, OrdMap.get_filter]
  simp

theorem On.prune (h : On ck r) (t : Time) : On ck (r.prune P t) := by
  constructor
  · refine (getElem?_wipeAged ?_).trans h.key
    intro e he _
    exact (h.stash.held e.1 e.2.1 e.2.2 (OrdMap.get_eq_some.mpr he)).2.2
  · constructor
    · intro k b s hk
      obtain ⟨hk, hage⟩ := get_prune.mp hk
      obtain ⟨hlt, hmem, hne⟩ := h.stash.held k b s hk
      refine ⟨hlt, (getElem?_wipeAged ?_).trans hmem, hne⟩
      rintro ⟨k', b', s'⟩ he hage' rfl
      have he := OrdMap.get_eq_some.mpr he
      obtain rfl := h.stash.apart k k' b' s s' hk he
      rw [hk] at he
      cases he
      rw [hage] at hage'
      cases hage'
    · intro k k' b s s' hk hk'
      exact h.stash.apart k k' b s s' (get_prune.mp hk).1 (get_prune.mp hk').1

/-! ## Setting keys aside -/

theorem length_setAside (t : Time) (ps : List (Nat × S.Key)) (r : BufReceiver S) :
    r.mem.length ≤ (setAside t ps r).mem.length := by
  induction ps generalizing r with
  | nil => exact Nat.le_refl _
  | cons p ps ih =>
      refine Nat.le_trans ?_ (ih _)
      rw [List.length_append]
      exact Nat.le_add_right ..

theorem get_setAside_ne {ps : List (Nat × S.Key)} (h : k ∉ ps.map Prod.fst) :
    (setAside t ps r).skipped.get k = r.skipped.get k := by
  induction ps generalizing r with
  | nil => rfl
  | cons p ps ih =>
      rw [List.map_cons, List.mem_cons, not_or] at h
      rw [setAside, ih h.2]
      exact OrdMap.get_set_ne _ _ h.1

theorem isSome_setAside {ps : List (Nat × S.Key)} (h : k ∈ ps.map Prod.fst ∨ (r.skipped.get k).isSome = true) :
    ((setAside t ps r).skipped.get k).isSome = true := by
  induction ps generalizing r with
  | nil => simpa [setAside] using h
  | cons p ps ih =>
      rw [setAside]
      apply ih
      by_cases hk : k = p.1
      · right
        rw [hk, OrdMap.get_set_self]
        rfl
      · rw [List.map_cons, List.mem_cons] at h
        exact (h.imp_left fun h => h.resolve_left hk).imp_right fun h => by rwa [OrdMap.get_set_ne _ _ hk]

theorem Stash.setAside {j bound : Nat} {ps : List (Nat × S.Key)} (h : Stash ck j bound r) (hj : j < r.mem.length)
    (hps : ∀ p ∈ ps, p.1 < bound ∧ p.2 = S.chain.keyAt ck p.1) : Stash ck j bound (setAside t ps r) := by
  induction ps generalizing r with
  | nil => exact h
  | cons p ps ih =>
      rw [List.forall_mem_cons] at hps
      obtain ⟨⟨hlt, hkey⟩, hps⟩ := hps
      have hbelow : ∀ k b s, r.skipped.get k = some (b, s) → b < r.mem.length :=
        fun k b s hk => (List.getElem?_eq_some_iff.mp (h.held k b s hk).2.1).1
      rw [BufReceiver.setAside]
      apply ih _ _ hps
      · constructor
        · intro k b s hk
          obtain ⟨rfl, hs⟩ | ⟨-, hk⟩ := OrdMap.get_set_some hk
          · obtain ⟨rfl, -⟩ := Prod.mk.inj hs
            refine ⟨hlt, ?_, by omega⟩
            rw [← hkey]
            exact List.getElem?_concat_length ..
          · obtain ⟨hlt', hmem, hne⟩ := h.held k b s hk
            exact ⟨hlt', (List.getElem?_append_left (hbelow k b s hk)).trans hmem, hne⟩
        · intro k k' b s s' hk hk'
          obtain ⟨rfl, hs⟩ | ⟨-, hk⟩ := OrdMap.get_set_some hk <;> obtain ⟨rfl, hs'⟩ | ⟨-, hk'⟩ := OrdMap.get_set_some hk'
          · rfl
          · obtain ⟨rfl, -⟩ := Prod.mk.inj hs
            exact absurd (hbelow _ _ _ hk') (Nat.lt_irrefl _)
          · obtain ⟨rfl, -⟩ := Prod.mk.inj hs'
            exact absurd (hbelow _ _ _ hk) (Nat.lt_irrefl _)
          · exact h.apart k k' b s s' hk hk'
      · rw [List.length_append]
        omega

/-! ## Where a call stands -/

def CurAt (ck : S.Key) (r : BufReceiver S) (i : Nat) : Cur S → Prop
  | .shared b => b = r.key ∧ i = r.n
  | .own key => key = S.chain.chainAt ck i

def SourceAt (ck : S.Key) (r : BufReceiver S) (k : Nat) : Source S → Prop
  | .stashed b => ∃ t, r.skipped.get k = some (b, t)
  | .walked key passed next =>
    r.n ≤ k ∧ key = S.chain.keyAt ck k ∧ passed = between S.chain ck r.n k ∧ next = S.chain.chainAt ck (k + 1)

/-- What a call that opens counter `k` has derived is right, and the receiver is still where the call found it. -/
def At (P : Platform S) (ck : S.Key) (r : BufReceiver S) (k : Nat) (header ct : Bytes) : Awaiting S → Prop
  | .msgKey cur i passed key =>
    r.n ≤ i ∧ i ≤ k ∧ CurAt ck r i cur ∧ passed = between S.chain ck r.n i ∧ key = S.chain.keyAt ck i
  | .chainNext i passed key next =>
    r.n ≤ i ∧ i ≤ k ∧ passed = between S.chain ck r.n i ∧ key = S.chain.keyAt ck i ∧ next = S.chain.chainAt ck (i + 1)
  | .importKey src key => SourceAt ck r k src ∧ key = S.chain.keyAt ck k
  | .aeadNonce src key nonce =>
    SourceAt ck r k src ∧ key = S.chain.keyAt ck k ∧ nonce = S.aeadNonce (S.chain.keyAt ck k) (Bytes.u32be k)
  | .decrypt src pt => SourceAt ck r k src ∧ pt = verdict P ck k header ct

/-- The receiver has the key of counter `k`, or would walk to it. -/
def Within (P : Platform S) (r : BufReceiver S) (k : Nat) : Prop :=
  (r.skipped.get k).isSome = true ∨ r.n ≤ k ∧ k - r.n ≤ P.opts.maxSkip

variable {header ct : Bytes} {s : Awaiting S}

theorem readSource_at (h : On ck r) {src : Source S} (hs : SourceAt ck r k src) :
    r.readSource P src = S.chain.keyAt ck k := by
  cases src with
  | stashed b =>
      obtain ⟨t, ht⟩ := hs
      exact h.read_stashed ht
  | walked key passed next => exact hs.2.1

theorem start_at (h : On ck r) (header ct : Bytes) (hs : r.start P k = .ok s) :
    At P ck r k header ct s ∧ (s.walks = true → r.n ≤ k) ∧ s.walks = !(r.skipped.get k).isSome := by
  unfold start at hs
  cases hg : r.skipped.get k with
  | some x =>
      rw [hg] at hs
      cases hs
      exact ⟨⟨⟨x.2, hg⟩, h.read_stashed hg⟩, by simp [Awaiting.walks, Source.isWalk], rfl⟩
  | none =>
      rw [hg] at hs
      dsimp only at hs
      split at hs
      · cases hs
      · rename_i hlt
        split at hs
        · cases hs
        · cases hs
          have hle := Nat.not_lt.mp hlt
          refine ⟨⟨Nat.le_refl _, hle, ⟨rfl, rfl⟩, ?_, ?_⟩, fun _ => hle, rfl⟩
          · simp [between]
          · rw [h.read_key]
            rfl

theorem start_within (hw : Within P r k) : ∃ s, r.start P k = .ok s := by
  unfold start
  cases hg : r.skipped.get k with
  | some x => exact ⟨_, rfl⟩
  | none =>
      rw [Within, hg] at hw
      obtain hw | ⟨hle, hskip⟩ := hw
      · cases hw
      · rw [if_neg (by omega), if_neg (by omega)]
        exact ⟨_, rfl⟩

/-- A call goes on to its next await, is refused by the AEAD, or opens its frame. -/
inductive Went (P : Platform S) (ck : S.Key) (r : BufReceiver S) (k : Nat) (header ct : Bytes) (t : Time)
    (s : Awaiting S) : BufReceiver S × Sum (Awaiting S) (Option Bytes) → Prop
  | on {s' : Awaiting S} : At P ck r k header ct s' → s'.walks = s.walks → Went P ck r k header ct t s (r, .inl s')
  | refused : verdict P ck k header ct = none → Went P ck r k header ct t s (r, .inr none)
  | opened {src : Source S} {pt : Bytes} : SourceAt ck r k src → src.isWalk = s.walks →
      verdict P ck k header ct = some pt → Went P ck r k header ct t s (r.commit P k t src, .inr (some pt))

theorem goOn_cases (h : On ck r) (hs : At P ck r k header ct s) (t : Time) :
    Went P ck r k header ct t s (r.goOn P k header ct t s) := by
  cases s with
  | msgKey cur i passed key =>
      obtain ⟨hle, hik, hcur, hpassed, hkey⟩ := hs
      refine .on ⟨hle, hik, hpassed, hkey, ?_⟩ rfl
      cases cur with
      | shared b =>
          obtain ⟨rfl, rfl⟩ := hcur
          rw [readCur, h.read_key, KeyChain.chainAt_succ]
      | own c =>
          have hc : c = S.chain.chainAt ck i := hcur
          rw [readCur, hc, KeyChain.chainAt_succ]
  | chainNext i passed key next =>
      obtain ⟨hle, hik, rfl, rfl, rfl⟩ := hs
      rw [goOn]
      split
      · rename_i hlt
        exact .on ⟨Nat.le_succ_of_le hle, hlt, rfl, between_succ hle, rfl⟩ rfl
      · have hi : i = k := by omega
        subst hi
        exact .on ⟨⟨hle, rfl, rfl, rfl⟩, rfl⟩ rfl
  | importKey src key =>
      obtain ⟨hsrc, rfl⟩ := hs
      rw [goOn, readSource_at h hsrc]
      exact .on ⟨hsrc, rfl, rfl⟩ rfl
  | aeadNonce src key nonce =>
      obtain ⟨hsrc, rfl, rfl⟩ := hs
      exact .on ⟨hsrc, rfl⟩ rfl
  | decrypt src pt =>
      obtain ⟨hsrc, hpt⟩ := hs
      cases pt with
      | none => exact .refused hpt.symm
      | some pt => exact .opened hsrc rfl hpt.symm

/-! ## A frame is opened -/

/-- What opening counter `k` does to the receiver, seen from other calls. -/
structure Moved (P : Platform S) (ck : S.Key) (k : Nat) (r r' : BufReceiver S) : Prop where
  on : On ck r'
  forward : r.n ≤ r'.n
  past : k < r'.n ∧ r'.skipped.get k = none
  kept : ∀ j s, j ≠ k → r.skipped.get j = some s → r'.skipped.get j = some s
  gone : ∀ j, j < r.n → r.skipped.get j = none → r'.skipped.get j = none
  within : ∀ j, j ≠ k → Within P r j → Within P r' j

theorem commit_stashed (h : On ck r) {b : Nat} (hb : SourceAt ck r k (.stashed b)) (t : Time) :
    Moved P ck k r (r.commit P k t (.stashed b)) ∧ (r.commit P k t (.stashed b)).n = r.n ∧
      (r.commit P k t (.stashed b)).key = r.key := by
  obtain ⟨s, hs⟩ := hb
  obtain ⟨hlt, -, hne⟩ := h.stash.held k b s hs
  refine ⟨?_, rfl, rfl⟩
  constructor
  · constructor
    · exact (List.getElem?_set_ne hne).trans h.key
    · constructor
      · intro j b' s' hj
        obtain ⟨hjk, hj⟩ := OrdMap.get_delete_some hj
        obtain ⟨hlt', hmem, hne'⟩ := h.stash.held j b' s' hj
        refine ⟨hlt', (List.getElem?_set_ne ?_).trans hmem, hne'⟩
        rintro rfl
        exact hjk (h.stash.apart j k b s' s hj hs)
      · intro j j' b' s' s'' hj hj'
        exact h.stash.apart j j' b' s' s'' (OrdMap.get_delete_some hj).2 (OrdMap.get_delete_some hj').2
  · exact Nat.le_refl _
  · exact ⟨hlt, OrdMap.get_delete_self ..⟩
  · exact fun j s' hjk hj => (OrdMap.get_delete_ne _ hjk).trans hj
  · intro j _ hj
    rw [BufReceiver.commit, OrdMap.get_delete]
    split
    · rfl
    · exact hj
  · intro j hjk hw
    rw [Within, BufReceiver.commit] at *
    dsimp only
    rwa [OrdMap.get_delete_ne _ hjk]

theorem commit_walked (h : On ck r) {key next : S.Key} {passed : List (Nat × S.Key)}
    (hsrc : SourceAt ck r k (.walked key passed next)) (t : Time) :
    Moved P ck k r (r.commit P k t (.walked key passed next)) := by
  obtain ⟨hle, -, rfl, rfl⟩ := hsrc
  have hlen := length_setAside t (between S.chain ck r.n k) r
  have hlt : r.key < r.mem.length := (List.getElem?_eq_some_iff.mp h.key).1
  have hstash : Stash ck r.key (k + 1) (setAside t (between S.chain ck r.n k) r) := by
    apply Stash.setAside
    · refine ⟨fun j b s hj => ?_, h.stash.apart⟩
      obtain ⟨hj', hrest⟩ := h.stash.held j b s hj
      exact ⟨by omega, hrest⟩
    · exact hlt
    · intro p hp
      obtain ⟨-, hp', hkey'⟩ := mem_between hp
      exact ⟨by omega, hkey'⟩
  have hbelow : ∀ j, j < r.n → (setAside t (between S.chain ck r.n k) r).skipped.get j = r.skipped.get j := by
    intro j hj
    apply get_setAside_ne
    intro hmem'
    obtain ⟨p, hp, rfl⟩ := List.mem_map.mp hmem'
    have := (mem_between hp).1
    omega
  have hout : (setAside t (between S.chain ck r.n k) r).skipped.get k = none := by
    rw [get_setAside_ne]
    · cases hg : r.skipped.get k with
      | none => rfl
      | some s => exact absurd (h.stash.held k s.1 s.2 hg).1 (by omega)
    · intro hmem'
      obtain ⟨p, hp, hpk⟩ := List.mem_map.mp hmem'
      have := (mem_between hp).2.1
      omega
  constructor
  · constructor
    · simp only [commit, wipe, List.length_set]
      rw [List.getElem?_append_right (by simp), List.length_set, Nat.sub_self]
      rfl
    · constructor
      · intro j b s hj
        obtain ⟨hj', hm, hne⟩ := hstash.held j b s hj
        have hb := (List.getElem?_eq_some_iff.mp hm).1
        refine ⟨hj', ?_, ?_⟩
        · simp only [commit, wipe]
          rw [List.getElem?_append_left (by simpa using hb), List.getElem?_set_ne hne.symm]
          exact hm
        · simp only [commit, wipe, List.length_set]
          omega
      · exact hstash.apart
  · exact Nat.le_succ_of_le hle
  · exact ⟨Nat.lt_succ_self k, hout⟩
  · intro j s hjk hj
    exact (hbelow j (h.stash.held j s.1 s.2 hj).1).trans hj
  · intro j hj hnone
    exact (hbelow j hj).trans hnone
  · intro j hjk hw
    rw [Within]
    by_cases hj : k < j
    · right
      have hnone : r.skipped.get j = none := by
        cases hg : r.skipped.get j with
        | none => rfl
        | some s => exact absurd (h.stash.held j s.1 s.2 hg).1 (by omega)
      rw [Within, hnone] at hw
      obtain hw | ⟨hjn, hskip⟩ := hw
      · cases hw
      · simp only [commit]
        omega
    · left
      apply isSome_setAside
      by_cases hjn : r.n ≤ j
      · exact Or.inl (mem_between_of hjn (by omega))
      · right
        exact hw.resolve_right fun h => hjn h.1

/-! ## Other calls are not disturbed -/

/-- A call that opens with a key set aside needs that key only. -/
theorem At.of_stash {s : Awaiting S} (hs : s.walks = false)
    (hkept : ∀ x, r.skipped.get k = some x → r'.skipped.get k = some x) (h : At P ck r k header ct s) :
    At P ck r' k header ct s := by
  have hsrc : ∀ src : Source S, src.isWalk = false → SourceAt ck r k src → SourceAt ck r' k src := by
    intro src hw hsrc
    cases src with
    | stashed b =>
        obtain ⟨t, ht⟩ := hsrc
        exact ⟨t, hkept _ ht⟩
    | walked => cases hw
  cases s with
  | msgKey => cases hs
  | chainNext => cases hs
  | importKey src key => exact ⟨hsrc src hs h.1, h.2⟩
  | aeadNonce src key nonce => exact ⟨hsrc src hs h.1, h.2⟩
  | decrypt src pt => exact ⟨hsrc src hs h.1, h.2⟩

theorem At.stashed {s : Awaiting S} (hs : s.walks = false) (h : At P ck r k header ct s) :
    ∃ x, r.skipped.get k = some x := by
  have hsrc : ∀ src : Source S, src.isWalk = false → SourceAt ck r k src → ∃ x, r.skipped.get k = some x := by
    intro src hw hsrc
    cases src with
    | stashed b =>
        obtain ⟨t, ht⟩ := hsrc
        exact ⟨_, ht⟩
    | walked => cases hw
  cases s with
  | msgKey => cases hs
  | chainNext => cases hs
  | importKey src key => exact hsrc src hs h.1
  | aeadNonce src key nonce => exact hsrc src hs h.1
  | decrypt src pt => exact hsrc src hs h.1

/-- A call that walks needs the chain to stay where it is. -/
theorem At.of_walk {s : Awaiting S} (hs : s.walks = true) (hn : r'.n = r.n) (hkey : r'.key = r.key)
    (h : At P ck r k header ct s) : At P ck r' k header ct s := by
  have hsrc : ∀ src : Source S, src.isWalk = true → SourceAt ck r k src → SourceAt ck r' k src := by
    intro src hw hsrc
    cases src with
    | stashed b => cases hw
    | walked key passed next =>
        rw [SourceAt, hn]
        exact hsrc
  cases s with
  | msgKey cur i passed key =>
      obtain ⟨hle, hik, hcur, hrest⟩ := h
      rw [At, hn]
      refine ⟨hle, hik, ?_, hrest⟩
      cases cur with
      | shared b =>
          rw [CurAt, hn, hkey]
          exact hcur
      | own key => exact hcur
  | chainNext i passed key next =>
      rw [At, hn]
      exact h
  | importKey src key => exact ⟨hsrc src hs h.1, h.2⟩
  | aeadNonce src key nonce => exact ⟨hsrc src hs h.1, h.2⟩
  | decrypt src pt => exact ⟨hsrc src hs h.1, h.2⟩

theorem get_prune_fresh (hf : ∀ s ∈ r.skipped.get k, aged P t s = false) :
    (r.prune P t).skipped.get k = r.skipped.get k := by
  cases hg : r.skipped.get k with
  | some s => exact get_prune.mpr ⟨hg, hf s hg⟩
  | none =>
      cases hp : (r.prune P t).skipped.get k with
      | none => rfl
      | some s =>
          rw [(get_prune.mp hp).1] at hg
          cases hg

theorem At.prune {s : Awaiting S} (hf : ∀ s ∈ r.skipped.get k, aged P t s = false) (h : At P ck r k header ct s) :
    At P ck (r.prune P t) k header ct s := by
  cases hw : s.walks with
  | true => refine At.of_walk hw ?_ ?_ h <;> rfl
  | false =>
      apply h.of_stash hw
      intro x hx
      exact get_prune.mpr ⟨hx, hf x hx⟩

theorem Within.prune (hf : ∀ s ∈ r.skipped.get k, aged P t s = false) (h : Within P r k) :
    Within P (r.prune P t) k := by
  rw [Within, get_prune_fresh hf]
  exact h

end BufReceiver

/-! ## The invariant of a run -/

namespace Inbox

open BufReceiver (On At Within Moved)

variable {P : Platform S} {ck : S.Key} {w w' : Inbox S I} {id n k : Nat} {header ct : Bytes} {t : Time}

structure Inv (P : Platform S) (ck : S.Key) (w : Inbox S I) : Prop where
  on : On ck w.recv
  call : ∀ i n header ct s, w.calls.get i = some (.opening n header ct s) → At P ck w.recv n header ct s
  walkers : ∀ i j p q, w.calls.get i = some p → w.calls.get j = some q → p.walks = true → q.walks = true → i = j
  takers : ∀ i j p q n, w.calls.get i = some p → w.calls.get j = some q → p.takes n = true → q.takes n = true → i = j
  spent : ∀ d ∈ w.opened, d.n < w.recv.n ∧ w.recv.skipped.get d.n = none
  nodup : (w.opened.map Opened.n).Nodup
  genuine : ∀ d ∈ w.opened, verdict P ck d.n d.header d.ct = some d.pt

theorem Inv.start (v : Session I) (member : I.Pub) (c : Nat) :
    (start v member (S.chain.chainAt ck c) c : Inbox S I).Inv P ck where
  on := .make c
  call i n header ct s h := by cases h
  walkers i j p q h := by cases h
  takers i j p q n h := by cases h
  spent d h := by cases h
  nodup := List.nodup_nil
  genuine d h := by cases h

theorem Inv.ended (h : w.Inv P ck) (id : Nat) : (w.ended id).Inv P ck where
  on := h.on
  call i n header ct s hi := h.call i n header ct s (OrdMap.get_delete_some hi).2
  walkers i j p q hi hj := h.walkers i j p q (OrdMap.get_delete_some hi).2 (OrdMap.get_delete_some hj).2
  takers i j p q n hi hj := h.takers i j p q n (OrdMap.get_delete_some hi).2 (OrdMap.get_delete_some hj).2
  spent := h.spent
  nodup := h.nodup
  genuine := h.genuine

theorem Fresh.get (hf : w.Fresh P t) {p : Pending S} (hp : w.calls.get id = some p) (hk : w.counter p = some k) :
    ∀ s ∈ w.recv.skipped.get k, BufReceiver.aged P t s = false :=
  hf (id, p) (OrdMap.get_eq_some.mp hp) k hk

theorem Inv.prune (h : w.Inv P ck) (hf : w.Fresh P t) : ({ w with recv := w.recv.prune P t } : Inbox S I).Inv P ck where
  on := h.on.prune t
  call i n header ct s hi := (h.call i n header ct s hi).prune (hf.get hi rfl)
  walkers := h.walkers
  takers := h.takers
  spent d hd := by
    obtain ⟨hlt, hnone⟩ := h.spent d hd
    refine ⟨hlt, ?_⟩
    rw [BufReceiver.get_prune_fresh (by simp [hnone]), hnone]
  nodup := h.nodup
  genuine := h.genuine

/-- A call that is to open `n` takes its place among the others. -/
theorem Inv.set (h : w.Inv P ck) {s : Awaiting S} (hs : At P ck w.recv n header ct s)
    (hwalk : s.walks = true → ∀ j q, j ≠ id → w.calls.get j = some q → q.walks = false)
    (htake : s.walks = false → ∀ j q, j ≠ id → w.calls.get j = some q → q.takes n = false) :
    ({ w with calls := w.calls.set id (.opening n header ct s) } : Inbox S I).Inv P ck where
  on := h.on
  call i n' header' ct' s' hi := by
    obtain ⟨-, hp⟩ | ⟨-, hi⟩ := OrdMap.get_set_some hi
    · cases hp
      exact hs
    · exact h.call i n' header' ct' s' hi
  walkers i j p q hi hj hp hq := by
    obtain ⟨rfl, rfl⟩ | ⟨hne, hi'⟩ := OrdMap.get_set_some hi <;> obtain ⟨rfl, rfl⟩ | ⟨hne', hj'⟩ := OrdMap.get_set_some hj
    · rfl
    · rw [hwalk hp j q hne' hj'] at hq
      cases hq
    · rw [hwalk hq i p hne hi'] at hp
      cases hp
    · exact h.walkers i j p q hi' hj' hp hq
  takers i j p q m hi hj hp hq := by
    obtain ⟨rfl, rfl⟩ | ⟨hne, hi'⟩ := OrdMap.get_set_some hi <;> obtain ⟨rfl, rfl⟩ | ⟨hne', hj'⟩ := OrdMap.get_set_some hj
    · rfl
    · simp only [Pending.takes, Bool.and_eq_true, decide_eq_true_eq, Bool.not_eq_true'] at hp
      rw [← hp.1, htake hp.2 j q hne' hj'] at hq
      cases hq
    · simp only [Pending.takes, Bool.and_eq_true, decide_eq_true_eq, Bool.not_eq_true'] at hq
      rw [← hq.1, htake hq.2 i p hne hi'] at hp
      cases hp
    · exact h.takers i j p q m hi' hj' hp hq
  spent := h.spent
  nodup := h.nodup
  genuine := h.genuine

theorem Inv.begin_ (h : w.Inv P ck) (hf : w.Fresh P t) (hn : ∀ s ∈ w.recv.skipped.get n, BufReceiver.aged P t s = false)
    (hclear : w.Clear n) : (w.begin_ P id n header ct t).Inv P ck := by
  have hp := h.prune hf
  unfold Inbox.begin_
  dsimp only
  cases hs : (w.recv.prune P t).start P n with
  | error e => exact hp.ended id
  | ok s =>
      obtain ⟨hat, hle, hwalks⟩ := BufReceiver.start_at hp.on header ct hs
      dsimp only at hwalks
      rw [BufReceiver.get_prune_fresh hn] at hwalks
      rw [Clear] at hclear
      apply hp.set hat
      · intro hw j q _ hj
        rw [hw] at hwalks
        rw [if_neg (by simpa using hwalks.symm)] at hclear
        exact hclear (hle hw) (j, q) (OrdMap.get_eq_some.mp hj)
      · intro hw j q _ hj
        rw [hw] at hwalks
        rw [if_pos (by simpa using hwalks.symm)] at hclear
        exact hclear (j, q) (OrdMap.get_eq_some.mp hj)

theorem moved (h : w.Inv P ck) {src : Source S} (hsrc : BufReceiver.SourceAt ck w.recv n src) (t : Time) :
    Moved P ck n w.recv (w.recv.commit P n t src) := by
  cases src with
  | stashed b => exact (BufReceiver.commit_stashed h.on hsrc t).1
  | walked key passed next => exact BufReceiver.commit_walked h.on hsrc t

/-- The frame at counter `n` is opened, and the call ends. -/
theorem Inv.finish {s : Awaiting S} {src : Source S} {pt : Bytes} (h : w.Inv P ck)
    (hc : w.calls.get id = some (.opening n header ct s)) (hsrc : BufReceiver.SourceAt ck w.recv n src)
    (hw : src.isWalk = s.walks) (hpt : verdict P ck n header ct = some pt) :
    (({ w with
        recv := w.recv.commit P n t src
        opened := ⟨n, header, ct, pt⟩ :: w.opened } : Inbox S I).ended id).Inv P ck := by
  have hmoved := moved h hsrc t
  constructor
  · exact hmoved.on
  · intro i m header' ct' s' hi
    obtain ⟨hne, hi⟩ := OrdMap.get_delete_some hi
    have hat := h.call i m header' ct' s' hi
    cases hs' : s'.walks with
    | true =>
        -- no two calls walk, so the one that ended had a key set aside
        cases src with
        | walked key passed next => exact absurd (h.walkers i id _ _ hi hc hs' hw.symm) hne
        | stashed b =>
            obtain ⟨-, hn, hkey⟩ := BufReceiver.commit_stashed (P := P) h.on hsrc t
            exact hat.of_walk hs' hn hkey
    | false =>
        have hmn : m ≠ n := by
          rintro rfl
          cases src with
          | walked key passed next =>
              obtain ⟨x, hx⟩ := hat.stashed hs'
              exact absurd (h.on.stash.held m x.1 x.2 hx).1 (Nat.not_lt.mpr hsrc.1)
          | stashed b =>
              refine hne (h.takers i id _ _ m hi hc ?_ ?_)
              · simp [Pending.takes, hs']
              · simp [Pending.takes, ← hw, Source.isWalk]
        apply hat.of_stash hs'
        exact fun x hx => hmoved.kept m x hmn hx
  · intro i j p q hi hj
    exact h.walkers i j p q (OrdMap.get_delete_some hi).2 (OrdMap.get_delete_some hj).2
  · intro i j p q m hi hj
    exact h.takers i j p q m (OrdMap.get_delete_some hi).2 (OrdMap.get_delete_some hj).2
  · refine List.forall_mem_cons.mpr ⟨hmoved.past, ?_⟩
    intro d hd
    obtain ⟨hlt, hnone⟩ := h.spent d hd
    exact ⟨Nat.lt_of_lt_of_le hlt hmoved.forward, hmoved.gone d.n hlt hnone⟩
  · refine List.nodup_cons.mpr ⟨?_, h.nodup⟩
    intro hmem
    obtain ⟨d, hd, hdn⟩ := List.mem_map.mp hmem
    obtain ⟨hlt, hnone⟩ := h.spent d hd
    rw [hdn] at hlt hnone
    cases src with
    | walked key passed next => exact absurd hsrc.1 (Nat.not_le.mpr hlt)
    | stashed b =>
        obtain ⟨x, hx⟩ := hsrc
        rw [hx] at hnone
        cases hnone
  · exact List.forall_mem_cons.mpr ⟨hpt, h.genuine⟩

theorem Inv.goOn {s : Awaiting S} (h : w.Inv P ck) (hc : w.calls.get id = some (.opening n header ct s)) :
    (w.goOn P id n header ct s t).Inv P ck := by
  have hat := h.call id n header ct s hc
  have hcases := BufReceiver.goOn_cases h.on hat t
  unfold Inbox.goOn
  generalize w.recv.goOn P n header ct t s = out at hcases ⊢
  cases hcases with
  | on hat' hw =>
      apply h.set hat'
      · intro hw' j q hne hj
        cases hq : q.walks with
        | false => rfl
        | true => exact absurd (h.walkers j id q _ hj hc hq (hw.symm.trans hw')) hne
      · intro hw' j q hne hj
        cases hq : q.takes n with
        | false => rfl
        | true =>
            refine absurd (h.takers j id q _ n hj hc hq ?_) hne
            rw [hw] at hw'
            simp [Pending.takes, hw']
  | refused _ => exact h.ended id
  | opened hsrc hw hpt => exact h.finish hc hsrc hw hpt

theorem Inv.act (h : w.Inv P ck) (a : InboxAct) (hok : w.Apart P a) : (w.act P a).Inv P ck := by
  cases a with
  | receive id frame =>
      rw [Inbox.act]
      split
      · exact h
      · constructor
        · exact h.on
        · intro i n header ct s hi
          obtain ⟨-, hp⟩ | ⟨-, hi⟩ := OrdMap.get_set_some hi
          · cases hp
          · exact h.call i n header ct s hi
        · intro i j p q hi hj hp hq
          obtain ⟨-, rfl⟩ | ⟨-, hi⟩ := OrdMap.get_set_some hi
          · cases hp
          · obtain ⟨-, rfl⟩ | ⟨-, hj⟩ := OrdMap.get_set_some hj
            · cases hq
            · exact h.walkers i j p q hi hj hp hq
        · intro i j p q n hi hj hp hq
          obtain ⟨-, rfl⟩ | ⟨-, hi⟩ := OrdMap.get_set_some hi
          · cases hp
          · obtain ⟨-, rfl⟩ | ⟨-, hj⟩ := OrdMap.get_set_some hj
            · cases hq
            · exact h.takers i j p q n hi hj hp hq
        · exact h.spent
        · exact h.nodup
        · exact h.genuine
  | open_ id n header ct t =>
      obtain ⟨hf, hn, hclear⟩ := hok
      rw [Inbox.act]
      split
      · exact h
      · exact h.begin_ hf hn hclear
  | resume id t =>
      rw [Inbox.act]
      unfold Inbox.resume
      split
      · exact h
      · rename_i frame hc
        split
        · exact h.ended id
        · rename_i a ha
          obtain ⟨hf, hclear⟩ := hok _ hc frame rfl a ha
          exact h.begin_ hf (hf.get hc (by simp [counter, ha])) hclear
      · rename_i hc
        exact h.goOn hc

theorem Inv.reach {v : Session I} {member : I.Pub} {c : Nat}
    (h : Reach (Inbox.act P) (Inbox.Apart P) (Inbox.start v member (S.chain.chainAt ck c) c) w) : w.Inv P ck :=
  h.invariant (Inv.start v member c) fun _ a h hok => h.act a hok

/-! ## A frame handed in is opened -/

/-- The frame waits for its opening within reach, is being opened, or its counter has been. -/
inductive Due (P : Platform S) (w : Inbox S I) (id k : Nat) (header ct : Bytes) : Prop
  | waits {frame : Bytes} {a : Session.Accepted I} : w.calls.get id = some (.checking frame) →
      w.accepts frame = some a → a.ctr = k → a.header = header → a.ct = ct → Within P w.recv k → Due P w id k header ct
  | opens {s : Awaiting S} : w.calls.get id = some (.opening k header ct s) → Due P w id k header ct
  | done : k ∈ w.opened.map Opened.n → Due P w id k header ct

/-- What a step of call `id'` leaves to the others. -/
structure Beside (P : Platform S) (w w' : Inbox S I) (id' : Nat) : Prop where
  session : w'.session = w.session
  member : w'.member = w.member
  calls : ∀ i, i ≠ id' → w'.calls.get i = w.calls.get i
  opened : ∀ d ∈ w.opened, d ∈ w'.opened
  forward : w.recv.n ≤ w'.recv.n
  within : ∀ i p k, i ≠ id' → w.calls.get i = some p → w.counter p = some k → Within P w.recv k →
    Within P w'.recv k ∨ k ∈ w'.opened.map Opened.n

theorem beside_begin (hf : w.Fresh P t) : Beside P w (w.begin_ P id n header ct t) id := by
  unfold Inbox.begin_
  dsimp only
  split
  · constructor
    · rfl
    · rfl
    · exact fun i hi => OrdMap.get_delete_ne _ hi
    · exact fun d hd => hd
    · exact Nat.le_refl _
    · exact fun i p k _ hp hk hw => Or.inl (hw.prune (hf.get hp hk))
  · constructor
    · rfl
    · rfl
    · exact fun i hi => OrdMap.get_set_ne _ _ hi
    · exact fun d hd => hd
    · exact Nat.le_refl _
    · exact fun i p k _ hp hk hw => Or.inl (hw.prune (hf.get hp hk))

theorem beside_goOn {s : Awaiting S} (h : w.Inv P ck) (hc : w.calls.get id = some (.opening n header ct s)) :
    Beside P w (w.goOn P id n header ct s t) id := by
  have hcases := BufReceiver.goOn_cases h.on (h.call id n header ct s hc) t
  unfold Inbox.goOn
  generalize w.recv.goOn P n header ct t s = out at hcases ⊢
  cases hcases with
  | on _ _ =>
      exact ⟨rfl, rfl, fun i hi => OrdMap.get_set_ne _ _ hi, fun d hd => hd, Nat.le_refl _,
        fun i p k _ _ _ hw => Or.inl hw⟩
  | refused _ =>
      exact ⟨rfl, rfl, fun i hi => OrdMap.get_delete_ne _ hi, fun d hd => hd, Nat.le_refl _,
        fun i p k _ _ _ hw => Or.inl hw⟩
  | opened hsrc _ _ =>
      have hmoved := moved h hsrc t
      refine ⟨rfl, rfl, fun i hi => OrdMap.get_delete_ne _ hi, fun d hd => List.mem_cons_of_mem _ hd, hmoved.forward, ?_⟩
      intro i p k _ _ _ hw
      by_cases hk : k = n
      · exact Or.inr (List.mem_map.mpr ⟨_, List.mem_cons_self .., hk.symm⟩)
      · exact Or.inl (hmoved.within k hk hw)

theorem beside_act (h : w.Inv P ck) (a : InboxAct) (hok : w.Apart P a) : Beside P w (w.act P a) (a.call) := by
  have hrefl : Beside P w w (a.call) :=
    ⟨rfl, rfl, fun _ _ => rfl, fun _ hd => hd, Nat.le_refl _, fun _ _ _ _ _ _ hw => Or.inl hw⟩
  cases a with
  | receive id frame =>
      rw [Inbox.act]
      split
      · exact hrefl
      · exact ⟨rfl, rfl, fun i hi => OrdMap.get_set_ne _ _ hi, fun _ hd => hd, Nat.le_refl _,
          fun _ _ _ _ _ _ hw => Or.inl hw⟩
  | open_ id n header ct t =>
      rw [Inbox.act]
      split
      · exact hrefl
      · exact beside_begin hok.1
  | resume id t =>
      rw [Inbox.act]
      unfold Inbox.resume
      split
      · exact hrefl
      · rename_i frame hc
        split
        · exact ⟨rfl, rfl, fun i hi => OrdMap.get_delete_ne _ hi, fun _ hd => hd, Nat.le_refl _,
            fun _ _ _ _ _ _ hw => Or.inl hw⟩
        · rename_i a ha
          exact beside_begin (hok _ hc frame rfl a ha).1
      · rename_i hc
        exact beside_goOn h hc

theorem Beside.accepts {id' : Nat} (h : Beside P w w' id') (frame : Bytes) : w'.accepts frame = w.accepts frame := by
  rw [Inbox.accepts, Inbox.accepts, h.session, h.member]

theorem Due.act {pt : Bytes} (h : w.Inv P ck) (hv : verdict P ck k header ct = some pt) (a : InboxAct)
    (hok : w.Apart P a) (hd : Due P w id k header ct) : Due P (w.act P a) id k header ct := by
  have hb := beside_act h a hok
  cases hd with
  | @waits frame x hc hacc hk hh hct hw =>
      by_cases hid : id = a.call
      · cases a with
        | receive id' frame' =>
            obtain rfl : id = id' := hid
            rw [Inbox.act, hc, Option.isSome_some, if_pos rfl]
            exact .waits hc hacc hk hh hct hw
        | open_ id' n header' ct' t =>
            obtain rfl : id = id' := hid
            rw [Inbox.act, hc, Option.isSome_some, if_pos rfl]
            exact .waits hc hacc hk hh hct hw
        | resume id' t =>
            obtain rfl : id = id' := hid
            subst hk hh hct
            obtain ⟨hf, -⟩ := hok _ hc frame rfl x hacc
            obtain ⟨s, hs⟩ := BufReceiver.start_within (hw.prune (hf.get hc (by simp [counter, hacc])))
            rw [Inbox.act, Inbox.resume, hc]
            simp only [hacc, Inbox.begin_, hs]
            exact .opens (OrdMap.get_set_self ..)
      · obtain hw' | hdone := hb.within id _ k hid hc (by simp [counter, hacc, hk]) hw
        · exact .waits ((hb.calls id hid).trans hc) ((hb.accepts frame).trans hacc) hk hh hct hw'
        · exact .done hdone
  | @opens s hc =>
      by_cases hid : id = a.call
      · cases a with
        | receive id' frame' =>
            obtain rfl : id = id' := hid
            rw [Inbox.act, hc, Option.isSome_some, if_pos rfl]
            exact .opens hc
        | open_ id' n header' ct' t =>
            obtain rfl : id = id' := hid
            rw [Inbox.act, hc, Option.isSome_some, if_pos rfl]
            exact .opens hc
        | resume id' t =>
            obtain rfl : id = id' := hid
            rw [Inbox.act, Inbox.resume, hc]
            have hcases := BufReceiver.goOn_cases h.on (h.call id k header ct s hc) t
            dsimp only
            unfold Inbox.goOn
            generalize w.recv.goOn P k header ct t s = out at hcases ⊢
            cases hcases with
            | on _ _ => exact .opens (OrdMap.get_set_self ..)
            | refused hnone =>
                rw [hv] at hnone
                cases hnone
            | opened _ _ _ => exact .done (List.mem_map.mpr ⟨_, List.mem_cons_self .., rfl⟩)
      · exact .opens ((hb.calls id hid).trans hc)
  | done hdone =>
      obtain ⟨d, hd, hdn⟩ := List.mem_map.mp hdone
      exact .done (List.mem_map.mpr ⟨d, hb.opened d hd, hdn⟩)

/-- A frame within reach is due from the moment it is handed in. -/
theorem due_of_hands {a : InboxAct} (hh : w.hands a = some (k, header, ct)) (hok : w.Apart P a)
    (hfree : w.calls.get a.call = none) (hw : Within P w.recv k) : Due P (w.act P a) a.call k header ct := by
  cases a with
  | receive id frame =>
      obtain ⟨x, hx, he⟩ := Option.map_eq_some_iff.mp hh
      obtain ⟨hk, he⟩ := Prod.mk.inj he
      obtain ⟨hh', hct⟩ := Prod.mk.inj he
      have hfree' : w.calls.get id = none := hfree
      simp only [Inbox.act, hfree', Option.isSome_none, Bool.false_eq_true, if_false]
      exact .waits (OrdMap.get_set_self ..) hx hk hh' hct hw
  | open_ id n header' ct' t =>
      cases hh
      have hfree' : w.calls.get id = none := hfree
      obtain ⟨s, hs⟩ := BufReceiver.start_within (hw.prune hok.2.1)
      simp only [Inbox.act, hfree', Option.isSome_none, Bool.false_eq_true, if_false, Inbox.begin_, hs]
      exact .opens (OrdMap.get_set_self ..)
  | resume id t => cases hh

/-- A call that goes on comes closer to its end. -/
theorem left_resume (w : Inbox S I) {p : Pending S} (hc : w.calls.get id = some p) (t : Time) :
    (w.act P (.resume id t)).calls.get id = none ∨
      ∃ p', (w.act P (.resume id t)).calls.get id = some p' ∧ w.left p' < w.left p := by
  rw [Inbox.act, Inbox.resume, hc]
  cases p with
  | checking frame =>
      dsimp only
      cases ha : w.accepts frame with
      | none => exact Or.inl (OrdMap.get_delete_self ..)
      | some a =>
          dsimp only
          unfold Inbox.begin_
          dsimp only
          cases hs : (w.recv.prune P t).start P a.ctr with
          | error e => exact Or.inl (OrdMap.get_delete_self ..)
          | ok s =>
              refine Or.inr ⟨_, OrdMap.get_set_self .., ?_⟩
              have hleft : s.left a.ctr ≤ 2 * a.ctr + 5 := by
                unfold BufReceiver.start at hs
                split at hs
                · cases hs
                  simp only [Awaiting.left]
                  omega
                · split at hs
                  · cases hs
                  · split at hs
                    · cases hs
                    · cases hs
                      simp only [Awaiting.left]
                      omega
              simp only [Inbox.left, ha, Option.elim_some]
              omega
  | opening n header ct s =>
      dsimp only
      unfold Inbox.goOn
      cases s with
      | msgKey cur i passed key =>
          refine Or.inr ⟨_, OrdMap.get_set_self .., ?_⟩
          simp [Inbox.left, Awaiting.left]
      | chainNext i passed key next =>
          simp only [BufReceiver.goOn]
          split
          · rename_i hgo
            split at hgo
            · cases hgo
              refine Or.inr ⟨_, OrdMap.get_set_self .., ?_⟩
              simp only [Inbox.left, Awaiting.left]
              omega
            · cases hgo
              refine Or.inr ⟨_, OrdMap.get_set_self .., ?_⟩
              simp only [Inbox.left, Awaiting.left]
              omega
          · exact Or.inl (OrdMap.get_delete_self ..)
          · exact Or.inl (OrdMap.get_delete_self ..)
      | importKey src key =>
          refine Or.inr ⟨_, OrdMap.get_set_self .., ?_⟩
          simp [Inbox.left, Awaiting.left]
      | aeadNonce src key nonce =>
          refine Or.inr ⟨_, OrdMap.get_set_self .., ?_⟩
          simp [Inbox.left, Awaiting.left]
      | decrypt src pt => cases pt <;> exact Or.inl (OrdMap.get_delete_self ..)

/-- What holds of the calls on a receiver, now and from now on. -/
structure Sure (P : Platform S) (ck : S.Key) (w : Inbox S I) : Prop where
  /-- a counter is opened once -/
  once : (w.opened.map Opened.n).Nodup
  forward : ∀ w', Reach (Inbox.act P) (Inbox.Apart P) w w' → w.recv.n ≤ w'.recv.n
  /-- a frame of the sender that is within reach when it is handed in is opened by the end of its call -/
  opens : ∀ a k header ct pt w', w.calls.get a.call = none → w.Apart P a → w.hands a = some (k, header, ct) →
    Within P w.recv k → verdict P ck k header ct = some pt → Reach (Inbox.act P) (Inbox.Apart P) (w.act P a) w' →
    (∃ p, w'.calls.get a.call = some p ∧ w'.counter p = some k) ∨ ∃ d ∈ w'.opened, d.header = header ∧ d.ct = ct
  /-- a call comes closer to its end with each step of it -/
  ends : ∀ i p t, w.calls.get i = some p → (w.act P (.resume i t)).calls.get i = none ∨
    ∃ p', (w.act P (.resume i t)).calls.get i = some p' ∧ w.left p' < w.left p

/-- While walks, and openings with one key set aside, are one at a time. -/
theorem overtaking {v : Session I} {member : I.Pub} {c : Nat}
    (single : ∀ k h c h' c' pt pt', verdict P ck k h c = some pt → verdict P ck k h' c' = some pt' → h = h' ∧ c = c')
    (hw : Reach (Inbox.act P) (Inbox.Apart P) (Inbox.start v member (S.chain.chainAt ck c) c) w) : w.Sure P ck := by
  have h := Inv.reach hw
  refine ⟨h.nodup, ?_, ?_, ?_⟩
  · intro w' hr
    have hinv := hr.invariant (I := fun w' => w'.Inv P ck ∧ w.recv.n ≤ w'.recv.n) ⟨h, Nat.le_refl _⟩
      fun w' a hw' hok => ⟨hw'.1.act a hok, Nat.le_trans hw'.2 (beside_act hw'.1 a hok).forward⟩
    exact hinv.2
  · intro a k header ct pt w' hfree hok hh hin hv hr
    have hinv := hr.invariant (I := fun w' => w'.Inv P ck ∧ Due P w' a.call k header ct)
      ⟨h.act a hok, due_of_hands hh hok hfree hin⟩ fun w' a' hw' hok' => ⟨hw'.1.act a' hok', hw'.2.act hw'.1 hv a' hok'⟩
    obtain ⟨h', hdue⟩ := hinv
    cases hdue with
    | waits hc hacc hk _ _ _ => exact Or.inl ⟨_, hc, by simp [counter, hacc, hk]⟩
    | opens hc => exact Or.inl ⟨_, hc, rfl⟩
    | done hd =>
        obtain ⟨d, hmem, rfl⟩ := List.mem_map.mp hd
        exact Or.inr ⟨d, hmem, single _ _ _ _ _ _ _ (h'.genuine d hmem) hv⟩
  · exact fun i p t hc => left_resume w hc t

end Inbox

/-! ## Two frames at once -/

namespace Symbolic

/-- Three frames of member 1 stand in the log of its AEAD. -/
def platform : Platform suite := ⟨{}, Box.openIn threeSent.log, .secret 255⟩

def viewOf : Session identities := { pair with me := (2 : UInt8) }

def inboxOf : Inbox suite identities := .start viewOf (1 : UInt8) seed 0

/-- Frame 0 is at the AEAD when frame 1 arrives, which is opened first. -/
def crossing : List InboxAct :=
  [.receive 0 (frameAt 0), .resume 0 0, .resume 0 0, .resume 0 0, .resume 0 0, .resume 0 0,
    .receive 1 (frameAt 1)] ++ List.replicate 8 (.resume 1 0)

def crossed : Inbox suite identities := crossing.foldl (Inbox.act platform) inboxOf

/-- Frame 0 ends, and frame 1 is handed in again. -/
def recrossed : Inbox suite identities :=
  ([InboxAct.resume 0 0, .receive 1 (frameAt 1)] ++ List.replicate 6 (InboxAct.resume 1 0)).foldl (Inbox.act platform)
    crossed

/-- The position goes back, and frame 1 is opened again. -/
theorem crossed_goes_back : (crossed.act platform (.resume 0 0)).recv.n < crossed.recv.n ∧
    ¬(recrossed.opened.map Opened.n).Nodup := by
  refine ⟨by decide +kernel, ?_⟩
  have hopened : recrossed.opened.map Opened.n = [1, 0, 1] := by decide +kernel
  rw [hopened]
  decide

/-- Frame 2 overtakes frame 1, each opened before the next begins. -/
def inTurn : List InboxAct :=
  [.receive 0 (frameAt 2)] ++ List.replicate 10 (.resume 0 0) ++ [.receive 0 (frameAt 1)] ++
    List.replicate 4 (.resume 0 0)

theorem single_threeSent (k : Nat) (h c h' c' pt pt' : Bytes) (hv : verdict platform seed k h c = some pt)
    (hv' : verdict platform seed k h' c' = some pt') : h = h' ∧ c = c' := by
  obtain ⟨b, hb, ⟨hk, -, hh, hc⟩, -⟩ := Box.openIn_eq_some hv
  obtain ⟨b', hb', ⟨hk', -, hh', hc'⟩, -⟩ := Box.openIn_eq_some hv'
  have hkeys : (threeSent.log.map Box.key).Nodup := by decide
  obtain rfl : b = b' := List.inj_on_of_nodup_map hkeys hb hb' (hk.trans hk'.symm)
  exact ⟨hh.symm.trans hh', hc.symm.trans hc'⟩

def turnsTaken : Inbox suite identities := inTurn.foldl (Inbox.act platform) inboxOf

theorem turns_taken : turnsTaken.Sure platform seed ∧ turnsTaken.opened.map Opened.n = [1, 2] := by
  have hadm : Admits (Inbox.act platform) (Inbox.Apart platform) inboxOf inTurn := by decide
  have hreach : Reach (Inbox.act platform) (Inbox.Apart platform)
      (Inbox.start viewOf (1 : UInt8) (suite.chain.chainAt seed 0) 0) turnsTaken := hadm.reach .start
  exact ⟨Inbox.overtaking single_threeSent hreach, by decide⟩

end Symbolic

end EncedoChat.Group
