import Mathlib.Data.List.Nodup
import EncedoChat.Lib.Run
import EncedoChat.Eh2.Transactional

/-!
# How much the skipped-key store holds

The store itself is bounded in chains. In keys `advance` looks at one jump, and those of several jumps stay beside one
another.
-/

namespace EncedoChat.Eh2

namespace SkippedKeys

variable {K : Type} {s : SkippedKeys K} {p q : Pub} {max n start stop : Nat} {now : Nat → Time} {keys : List K}

/-- The message numbers held of a chain. -/
def held (s : SkippedKeys K) (p : Pub) : List Nat := ((s.chains.get p).map OrdMap.keys).getD []

/-- Those of them that are not in `[start, stop)`. -/
def outside (s : SkippedKeys K) (p : Pub) (start stop : Nat) : List Nat :=
  (s.held p).filter fun m => decide (m < start) || decide (stop ≤ m)

theorem nodup_held (s : SkippedKeys K) (p : Pub) : (s.held p).Nodup := by
  unfold held
  cases s.chains.get p with
  | none => exact List.nodup_nil
  | some chain => exact chain.nodup

theorem mem_held {m : Nat} : m ∈ s.held p ↔ ∃ e, s.entry p m = some e := by
  unfold held entry
  cases s.chains.get p with
  | none => simp
  | some chain => exact OrdMap.mem_keys

theorem held_subset {s' : SkippedKeys K} (h : ∀ m e, s'.entry p m = some e → s.entry p m = some e) :
    s'.held p ⊆ s.held p := by
  intro m hm
  obtain ⟨e, he⟩ := mem_held.mp hm
  exact mem_held.mpr ⟨e, h m e he⟩

theorem length_held_mono {s' : SkippedKeys K} (h : ∀ m e, s'.entry p m = some e → s.entry p m = some e) :
    (s'.held p).length ≤ (s.held p).length :=
  (s'.nodup_held p).length_le_of_subset (held_subset h)

theorem length_outside_mono {s' : SkippedKeys K} (h : ∀ m e, s'.entry p m = some e → s.entry p m = some e)
    (start stop : Nat) : (s'.outside p start stop).length ≤ (s.outside p start stop).length :=
  ((s'.nodup_held p).filter _).length_le_of_subset (List.filter_subset _ (held_subset h))

/-! ## Chains -/

theorem size_put (h : s.chains.size ≤ max) (k : K) (t : Time) : (s.put max p n k t).chains.size ≤ max := by
  unfold put
  cases hg : s.chains.get p with
  | some chain =>
      dsimp only
      rwa [OrdMap.size_set_old hg]
  | none =>
      dsimp only
      split
      · rename_i hhas
        obtain ⟨v, hv⟩ := Option.isSome_iff_exists.mp hhas
        dsimp only
        rw [OrdMap.size_set_old hv]
        exact OrdMap.size_trim_le ..
      · exact OrdMap.size_trim_le ..

theorem size_putAll (h : s.chains.size ≤ max) : (putAll max p now s n keys).chains.size ≤ max := by
  induction keys generalizing s n with
  | nil => exact h
  | cons k keys ih => exact ih (size_put h k _)

theorem size_drop (s : SkippedKeys K) (p : Pub) (n : Nat) : (s.drop p n).chains.size ≤ s.chains.size := by
  unfold drop
  cases hg : s.chains.get p with
  | none => exact Nat.le_refl _
  | some chain =>
      dsimp only
      split
      · exact OrdMap.size_delete_le ..
      · exact Nat.le_of_eq (OrdMap.size_set_old hg)

theorem size_prune (ttl t : Time) (s : SkippedKeys K) : (s.prune ttl t).chains.size ≤ s.chains.size := by
  refine (OrdMap.size_filter_le ..).trans ?_
  rw [OrdMap.size_map]

/-! ## Keys of a chain -/

/-- Keys put under the numbers of `[start, start + k)` stand beside those held outside of it. -/
theorem length_held_putAll :
    ((putAll max p now s start keys).held p).length ≤ (s.outside p start (start + keys.length)).length + keys.length := by
  have hsub : (putAll max p now s start keys).held p ⊆
      s.outside p start (start + keys.length) ++ List.range' start keys.length := by
    intro m hm
    obtain ⟨e, he⟩ := mem_held.mp hm
    rw [List.mem_append, List.mem_range'_1]
    by_cases hin : start ≤ m ∧ m < start + keys.length
    · exact Or.inr hin
    · left
      obtain ⟨-, i, hi, hget⟩ | hold := entry_putAll he
      · have hlt := (List.getElem?_eq_some_iff.mp hget).1
        omega
      · refine List.mem_filter.mpr ⟨mem_held.mpr ⟨e, hold⟩, ?_⟩
        simp only [Bool.or_eq_true, decide_eq_true_eq]
        omega
  have hle := ((putAll max p now s start keys).nodup_held p).length_le_of_subset hsub
  rwa [List.length_append, List.length_range'] at hle

theorem entry_putAll_ne (hne : q ≠ p) {m : Nat} {e : Skipped K}
    (he : (putAll max p now s start keys).entry q m = some e) : s.entry q m = some e :=
  (entry_putAll he).resolve_left fun h => hne h.1

theorem length_held_putAll_ne (hne : q ≠ p) : ((putAll max p now s start keys).held q).length ≤ (s.held q).length :=
  length_held_mono fun _ _ he => entry_putAll_ne hne he

/-- A key that was put is held, with the clock reading of its number. -/
theorem entry_putAll_at (hmax : 0 < max) {m : Nat} (hge : n ≤ m) (hlt : m < n + keys.length) :
    ∃ k, (putAll max p now s n keys).entry p m = some ⟨k, now m⟩ := by
  induction keys generalizing s n with
  | nil =>
      rw [List.length_nil] at hlt
      omega
  | cons k keys ih =>
      rw [List.length_cons] at hlt
      rcases Nat.eq_or_lt_of_le hge with rfl | hgt
      · refine ⟨k, ?_⟩
        rw [putAll, (entry_putAll_same hmax).1 (Or.inl (Nat.lt_succ_self _)), entry_put_same hmax, if_pos rfl]
      · exact ih hgt (by omega)

theorem length_held_drop (s : SkippedKeys K) (p q : Pub) (n : Nat) : ((s.drop p n).held q).length ≤ (s.held q).length := by
  apply length_held_mono
  intro m e he
  rw [entry_drop] at he
  split at he
  · cases he
  · exact he

theorem length_held_prune (ttl t : Time) (s : SkippedKeys K) (q : Pub) :
    ((s.prune ttl t).held q).length ≤ (s.held q).length :=
  length_held_mono fun _ _ he => (entry_prune.mp he).1

end SkippedKeys

/-! ## Calls on a ratchet -/

variable {S : Suite} {o : Opts}

/-- The calls of one conversation, one after another. -/
inductive RatchetAct (S : Suite) where
  | encrypt (d : EncryptDraws S) (pt : Bytes)
  | decrypt (opens : Open S) (d : DecryptDraws S) (frame : Bytes)

namespace Ratchet

def act (o : Opts) (role : Role) (s : Ratchet S) : RatchetAct S → Ratchet S
  | .encrypt d pt => (s.encrypt o role d pt).1
  | .decrypt opens d frame => (s.decrypt o opens d frame).1

/-- The keys passed over between two numbers of a chain have room beside those that are held of it. -/
def Takes (o : Opts) (s : SkippedKeys S.Key) (p : Pub) (start stop : Nat) : Prop :=
  (s.outside p start stop).length + (stop - start) ≤ o.maxSkip

/-- There is room for what the header makes us hold. -/
def Room (o : Opts) (s : Ratchet S) (h : Header) : Prop :=
  if h.dhPub = s.dhPeerPub then Takes o s.skipped h.dhPub s.nRecv h.n
  else (s.ckRecv.isSome → Takes o s.skipped s.dhPeerPub s.nRecv h.pn) ∧ Takes o s.skipped h.dhPub 0 h.n

/-- A frame that verifies under no key set aside has room for the keys it passes over. -/
def HasRoom (o : Opts) (s : Ratchet S) : RatchetAct S → Prop
  | .encrypt _ _ => True
  | .decrypt opens d frame =>
    let s := s.prune o d.pruneAt
    ∀ h len mk pt, decodeHeader frame = some (h, len) → s.skipped.peek h.dhPub h.n = none → Selects o s h mk →
      OpensAt opens mk h.n (frame.take len) (frame.drop len) pt → Room o s h

/-- So many chains, and so many keys of each. -/
structure Bounded (o : Opts) (s : Ratchet S) : Prop where
  chains : s.skipped.chains.size ≤ o.maxChains
  keys : ∀ p, (s.skipped.held p).length ≤ o.maxSkip

variable {s s' : Ratchet S} {opens : Open S} {d : DecryptDraws S} {h : Header} {header ct pt : Bytes}

theorem skipped_encrypt (o : Opts) (role : Role) (s : Ratchet S) (d : EncryptDraws S) (pt : Bytes) :
    (s.encrypt o role d pt).1.skipped = s.skipped := by
  unfold encrypt
  split
  · split
    · rfl
    · rename_i dh _
      obtain ⟨pqKey, he, -⟩ := openSendChain_eq (o := o) s d dh
      rw [he]
      exact skipped_countStep ..
  · split <;> rfl

theorem skipped_note {coins : S.Coins} {p : Option Bytes} (hn : notePeerPqPub s coins p = some s') :
    s'.skipped = s.skipped := by
  obtain rfl | ⟨_, _, _, -, -, -, rfl⟩ := notePeerPqPub_eq hn <;> rfl

/-- What `decrypt` makes of the store: what `prune` does, and after it what opens the frame does. -/
theorem skipped_decrypt (o : Opts) (opens : Open S) (s : Ratchet S) (d : DecryptDraws S) (frame : Bytes) :
    (s.decrypt o opens d frame).1.skipped = s.skipped ∨
      (s.decrypt o opens d frame).1.skipped = (s.prune o d.pruneAt).skipped ∨
      ∃ h len s₁ pt, decodeHeader frame = some (h, len) ∧
        Opens o opens (s.prune o d.pruneAt) d h (frame.take len) (frame.drop len) s₁ pt ∧
        (s.decrypt o opens d frame).1.skipped = s₁.skipped := by
  obtain ⟨r, hdec, -⟩ | ⟨h, len, r, -, -, hdec⟩ | ⟨h, len, s₁, pt, hd, hop, ⟨-, hdec⟩ | ⟨s₂, hn, hdec⟩⟩ :=
    decrypt_cases o opens s d frame
  · exact Or.inl (by rw [hdec])
  · exact Or.inr (Or.inl (by rw [hdec]))
  · exact Or.inr (Or.inr ⟨h, len, s₁, pt, hd, hop, by rw [hdec]⟩)
  · exact Or.inr (Or.inr ⟨h, len, s₁, pt, hd, hop, by rw [hdec]; exact skipped_note hn⟩)

theorem skipped_countAnswer (s : Ratchet S) (h : Header) (t : Time) : (countAnswer s h t).skipped = s.skipped := by
  obtain ⟨_, _, _, he⟩ := countAnswer_eq s h t
  rw [he]

/-! ## The number of chains -/

theorem Opens.chains (hop : Opens o opens s d h header ct s' pt) (hs : s.skipped.chains.size ≤ o.maxChains) :
    s'.skipped.chains.size ≤ o.maxChains := by
  cases hop with
  | stashed => exact (SkippedKeys.size_drop ..).trans hs
  | same => exact SkippedKeys.size_putAll hs
  | turned =>
      rw [skipped_countAnswer]
      exact SkippedKeys.size_putAll (SkippedKeys.size_putAll hs)

theorem chains_act (role : Role) (a : RatchetAct S) (hs : s.skipped.chains.size ≤ o.maxChains) :
    (s.act o role a).skipped.chains.size ≤ o.maxChains := by
  cases a with
  | encrypt d pt => rwa [act, skipped_encrypt]
  | decrypt opens d frame =>
      have hp : (s.prune o d.pruneAt).skipped.chains.size ≤ o.maxChains := (SkippedKeys.size_prune ..).trans hs
      rw [act]
      obtain he | he | ⟨h, len, s₁, pt, -, hop, he⟩ := skipped_decrypt o opens s d frame
      · rwa [he]
      · rwa [he]
      · rw [he]
        exact hop.chains hp

/-! ## The number of keys -/

theorem length_closing {closing : List S.Key} (hc : closeChain o s h = .ok closing) :
    closing = [] ∨ s.ckRecv.isSome ∧ closing.length = h.pn - s.nRecv := by
  unfold closeChain at hc
  cases hr : s.ckRecv with
  | none =>
      rw [hr] at hc
      cases hc
      exact Or.inl rfl
  | some ck =>
      rw [hr] at hc
      dsimp only at hc
      cases ha : advance o ck s.nRecv h.pn with
      | error e =>
          rw [ha] at hc
          cases hc
      | ok w =>
          rw [ha] at hc
          cases hc
          obtain ⟨-, rfl⟩ := advance_ok.mp ha
          exact Or.inr ⟨rfl, KeyChain.length_walk ..⟩

/-- Keys put on a chain that takes them. -/
theorem Takes.held {s : SkippedKeys S.Key} {p : Pub} {max start stop : Nat} {now : Nat → Time} {keys : List S.Key}
    (h : Takes o s p start stop) (hlen : keys.length = stop - start) :
    ((SkippedKeys.putAll max p now s start keys).held p).length ≤ o.maxSkip := by
  refine (SkippedKeys.length_held_putAll).trans ?_
  rw [hlen]
  refine Nat.le_trans (Nat.add_le_add_right ?_ _) h
  -- `[start, start + (stop - start))` is `[start, stop)`, or both are empty
  have hsame : s.outside p start (start + (stop - start)) = s.outside p start stop := by
    unfold SkippedKeys.outside
    congr 1
    funext m
    rw [Bool.eq_iff_iff]
    simp only [Bool.or_eq_true, decide_eq_true_eq]
    omega
  rw [hsame]

theorem Opens.keys (hop : Opens o opens s d h header ct s' pt)
    (hroom : s.skipped.peek h.dhPub h.n = none → Room o s h) (hs : ∀ p, (s.skipped.held p).length ≤ o.maxSkip) (p : Pub) :
    (s'.skipped.held p).length ≤ o.maxSkip := by
  cases hop with
  | stashed => exact (SkippedKeys.length_held_drop ..).trans (hs p)
  | same hnone hpub =>
      have hr := hroom hnone
      rw [Room, if_pos hpub] at hr
      by_cases hp : p = h.dhPub
      · subst hp
        exact hr.held (KeyChain.length_walk ..)
      · exact (SkippedKeys.length_held_putAll_ne hp).trans (hs p)
  | @turned self dh ikm closing _ hnone hpub _ hclose =>
      have hr := hroom hnone
      rw [Room, if_neg hpub] at hr
      rw [skipped_countAnswer]
      have hclosed : ∀ q, ((SkippedKeys.putAll o.maxChains s.dhPeerPub d.closingAt s.skipped s.nRecv closing).held q).length
          ≤ o.maxSkip := by
        intro q
        by_cases hq : q = s.dhPeerPub
        · subst hq
          obtain rfl | ⟨hck, hlen⟩ := length_closing hclose
          · exact hs _
          · exact (hr.1 hck).held hlen
        · exact (SkippedKeys.length_held_putAll_ne hq).trans (hs q)
      by_cases hp : p = h.dhPub
      · subst hp
        refine Takes.held ?_ ((KeyChain.length_walk ..).trans (Nat.sub_zero h.n).symm)
        refine Nat.le_trans (Nat.add_le_add_right ?_ _) hr.2
        -- the chain that closes is another one
        exact SkippedKeys.length_outside_mono (fun _ _ he => SkippedKeys.entry_putAll_ne hpub he) 0 h.n
      · exact (SkippedKeys.length_held_putAll_ne hp).trans (hclosed p)

theorem Bounded.start (hs : HandshakeResult S) (now : Time) : Bounded o (ratchetFrom hs now) :=
  ⟨Nat.zero_le _, fun _ => Nat.zero_le _⟩

theorem Bounded.act (role : Role) {a : RatchetAct S} (hs : Bounded o s) (ha : HasRoom o s a) :
    Bounded o (s.act o role a) := by
  refine ⟨chains_act role a hs.chains, ?_⟩
  intro p
  cases a with
  | encrypt d pt =>
      rw [Ratchet.act, skipped_encrypt]
      exact hs.keys p
  | decrypt opens d frame =>
      have hp : ∀ q, ((s.prune o d.pruneAt).skipped.held q).length ≤ o.maxSkip :=
        fun q => (SkippedKeys.length_held_prune ..).trans (hs.keys q)
      rw [Ratchet.act]
      obtain he | he | ⟨h, len, s₁, pt, hd, hop, he⟩ := skipped_decrypt o opens s d frame
      · rw [he]
        exact hs.keys p
      · rw [he]
        exact hp p
      · rw [he]
        obtain ⟨mk, hsel, hpt⟩ := hop.selects
        exact hop.keys (fun hnone => ha h len mk pt hd hnone hsel hpt) hp p

/-- The store never holds keys of more than `maxChains` chains; and it never holds more than `maxSkip` of one as long as
no frame that verifies passes over more than there is room for. -/
theorem store_bounded (o : Opts) (role : Role) (hs : HandshakeResult S) (now : Time) :
    (∀ s, Reach (act o role) (fun _ _ => True) (ratchetFrom hs now) s → s.skipped.chains.size ≤ o.maxChains) ∧
      ∀ s, Reach (act o role) (HasRoom o) (ratchetFrom hs now) s → Bounded o s := by
  constructor
  · intro s h
    exact h.invariant (I := fun s => s.skipped.chains.size ≤ o.maxChains) (Nat.zero_le _)
      fun s a hs _ => chains_act role a hs
  · intro s h
    exact h.invariant (Bounded.start hs now) fun s a hs ha => hs.act role ha

/-- A frame that opens further along the chain, and carries no key of the peer's. -/
theorem decrypt_jump {frame : Bytes} {len : Nat} {ck : S.Key} (hd : decodeHeader frame = some (h, len))
    (hpq : h.pqPub = none) (hpub : h.dhPub = s.dhPeerPub) (hck : s.ckRecv = some ck) (hle : s.nRecv ≤ h.n)
    (hskip : h.n - s.nRecv ≤ o.maxSkip) (hnone : (s.prune o d.pruneAt).skipped.peek h.dhPub h.n = none)
    (hopen : OpensAt opens (S.chain.keyAt ck (h.n - s.nRecv)) h.n (frame.take len) (frame.drop len) pt) :
    (s.decrypt o opens d frame).1 = afterSame o (s.prune o d.pruneAt) d h ck := by
  have hop : Opens o opens (s.prune o d.pruneAt) d h (frame.take len) (frame.drop len)
      (afterSame o (s.prune o d.pruneAt) d h ck) pt := .same hnone hpub hck hle hskip hopen
  simp only [decrypt, hd, openFrame_ok.mpr hop, hpq, notePeerPqPub]

end Ratchet

/-! ## Two jumps on one chain -/

namespace Symbolic

def jumpHeader (n : Nat) : Header := ⟨pub 1, 0, n, none, none⟩
def jump (n : Nat) : Bytes := encodeHeader (jumpHeader n) ++ List.replicate 16 0

/-- The peer makes frames that verify under whatever key their header selects. -/
def verifies : Open suite := fun _ _ _ _ => some []

def afterJump (s : Ratchet suite) (n : Nat) : Ratchet suite :=
  s.act {} .responder (.decrypt verifies someDraws (jump n))

/-- What is held of the chain, as of the one reading of the clock. -/
def Holds (s : Ratchet suite) (m : Nat) : Prop := ∃ k, s.skipped.entry (pub 1) m = some ⟨k, 0⟩

theorem holds_prune {s : Ratchet suite} {m : Nat} (h : Holds s m) : Holds (s.prune {} someDraws.pruneAt) m := by
  obtain ⟨k, hk⟩ := h
  have hfresh : (0 : Time) - 0 ≤ ({} : Opts).ttl := by decide
  exact ⟨k, SkippedKeys.entry_prune.mpr ⟨hk, hfresh⟩⟩

/-- A jump adds what it passes over. -/
theorem holds_afterJump {s : Ratchet suite} {n : Nat} {ck : suite.Key}
    (hd : decodeHeader (jump n) = some (jumpHeader n, HDR_LEN)) (hpeer : s.dhPeerPub = pub 1) (hck : s.ckRecv = some ck)
    (hle : s.nRecv ≤ n) (hskip : n - s.nRecv ≤ 1000) (hnew : ∀ m, s.nRecv ≤ m → s.skipped.entry (pub 1) m = none) :
    (∀ m, Holds s m ∨ s.nRecv ≤ m ∧ m < n → Holds (afterJump s n) m) ∧
      (∀ m, n + 1 ≤ m → (afterJump s n).skipped.entry (pub 1) m = none) ∧
      (afterJump s n).nRecv = n + 1 ∧ (afterJump s n).dhPeerPub = pub 1 ∧ (afterJump s n).ckRecv.isSome := by
  have hnone : ∀ m, s.nRecv ≤ m → (s.prune {} someDraws.pruneAt).skipped.entry (pub 1) m = none := by
    intro m hm
    cases he : (s.prune {} someDraws.pruneAt).skipped.entry (pub 1) m with
    | none => rfl
    | some e =>
        have hold := (SkippedKeys.entry_prune.mp he).1
        rw [hnew m hm] at hold
        cases hold
  have heq : afterJump s n = Ratchet.afterSame {} (s.prune {} someDraws.pruneAt) someDraws (jumpHeader n) ck := by
    refine Ratchet.decrypt_jump hd rfl hpeer.symm hck hle hskip ?_ rfl
    show ((s.prune {} someDraws.pruneAt).skipped.entry (pub 1) n).map _ = none
    rw [hnone n hle, Option.map_none]
  have hlen : (suite.chain.walk ck (n - s.nRecv)).1.length = n - s.nRecv := KeyChain.length_walk ..
  rw [heq]
  refine ⟨?_, ?_, rfl, hpeer, rfl⟩
  · rintro m (⟨k, hk⟩ | ⟨hge, hlt⟩)
    · have hbelow : m < s.nRecv := by
        by_contra hge
        rw [hnew m (by omega)] at hk
        cases hk
      obtain ⟨k, hk⟩ := holds_prune ⟨k, hk⟩
      exact ⟨k, ((SkippedKeys.entry_putAll_same (by decide)).1 (Or.inl hbelow)).trans hk⟩
    · refine SkippedKeys.entry_putAll_at (by decide) hge ?_
      rw [KeyChain.length_walk]
      show m < s.nRecv + (n - s.nRecv)
      omega
  · intro m hm
    refine ((SkippedKeys.entry_putAll_same (by decide)).1 (Or.inr ?_)).trans (hnone m (by omega))
    rw [KeyChain.length_walk]
    show s.nRecv + (n - s.nRecv) ≤ m
    omega

/-- Two jumps, neither over the bound, leave 2000 keys of one chain. -/
theorem jumps_unbounded : ¬ ∀ s, Reach (Ratchet.act {} .responder) (fun _ _ => True) freshResponder s →
    Ratchet.Bounded {} s := by
  intro hall
  have hb := hall (afterJump (afterJump freshResponder 1000) 2001) (.step _ (.step _ .start trivial) trivial)
  obtain ⟨hheld₁, hnew₁, hn₁, hpeer₁, hck₁⟩ := holds_afterJump (s := freshResponder) (n := 1000) (by decide) rfl
    rfl (Nat.zero_le _) (by decide) (fun _ _ => rfl)
  obtain ⟨ck, hck₁⟩ := Option.isSome_iff_exists.mp hck₁
  obtain ⟨hheld₂, -⟩ := holds_afterJump (n := 2001) (by decide) hpeer₁ hck₁ (by omega) (by omega)
    (by rw [hn₁]; exact hnew₁)
  have hsub : List.range 1000 ++ List.range' 1001 1000 ⊆
      (afterJump (afterJump freshResponder 1000) 2001).skipped.held (pub 1) := by
    intro m hm
    rw [List.mem_append, List.mem_range, List.mem_range'_1] at hm
    obtain ⟨k, hk⟩ : Holds (afterJump (afterJump freshResponder 1000) 2001) m := by
      apply hheld₂
      rw [hn₁]
      obtain hm | hm := hm
      · exact Or.inl (hheld₁ m (Or.inr ⟨Nat.zero_le _, hm⟩))
      · exact Or.inr ⟨hm.1, by omega⟩
    exact SkippedKeys.mem_held.mpr ⟨_, hk⟩
  have hnd : (List.range 1000 ++ List.range' 1001 1000).Nodup := by
    refine List.nodup_append.mpr ⟨List.nodup_range, List.nodup_range', ?_⟩
    intro a ha b hb
    rw [List.mem_range] at ha
    rw [List.mem_range'_1] at hb
    omega
  have hle := hnd.length_le_of_subset hsub
  have hmax := hb.keys (pub 1)
  rw [List.length_append, List.length_range, List.length_range'] at hle
  have hskip : ({} : Opts).maxSkip = 1000 := rfl
  omega

end Symbolic

end EncedoChat.Eh2
