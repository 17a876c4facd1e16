import EncedoChat.Core.Equivalence
import EncedoChat.Eh2.Bounds

/-!
# How much either store holds

The store of the Rust core is bounded as that of `eh2/ratchet.ts` is: in chains by itself, in keys one jump at a time.
-/

namespace EncedoChat.Core

open EncedoChat.Eh2 (Suite Pub Header HandshakeResult Open Role Time SkippedKeys)

namespace Skipped

variable {K : Type} {r : Skipped K} {s : SkippedKeys K} {p : Pub}

/-- The message numbers held of a chain. -/
def held (r : Skipped K) (p : Pub) : List Nat := ((r.chains.find? fun c => c.1 = p).map fun c => c.2.keys).getD []

/-- Those of them that are not in `[start, stop)`. -/
def outside (r : Skipped K) (p : Pub) (start stop : Nat) : List Nat :=
  (r.held p).filter fun m => decide (m < start) || decide (stop ≤ m)

theorem Same.held (h : Same r s) (p : Pub) : r.held p = s.held p := by
  rw [Skipped.held, SkippedKeys.held, h.get, Option.map_map]
  congr 2
  funext c
  simp [view, OrdMap.keys, OrdMap.map]

theorem Same.outside (h : Same r s) (p : Pub) (start stop : Nat) : r.outside p start stop = s.outside p start stop := by
  rw [Skipped.outside, SkippedKeys.outside, h.held]

theorem Same.chains (h : Same r s) : r.chains.length = s.chains.size := by
  rw [OrdMap.size, h, List.length_map]

end Skipped

variable {S : Suite} {X : Dalek S} {o : RatchetOpts} {opens : Open S}

namespace Ratchet

def call (X : Dalek S) (o : RatchetOpts) (opens : Open S) (s : Ratchet S) : Call S → Ratchet S
  | .encrypt newDh kemKey now plaintext => ((s.encrypt X o newDh kemKey now plaintext).map Prod.fst).getD s
  | .decrypt coins now frame => (s.decrypt X o opens coins now frame).1

def Takes (o : RatchetOpts) (s : Skipped S.Key) (p : Pub) (start stop : Nat) : Prop :=
  (s.outside p start stop).length + (stop - start) ≤ o.maxSkipPerChain.toNat

/-- There is room for what the header makes us hold. -/
def Room (o : RatchetOpts) (s : Ratchet S) (h : Header) : Prop :=
  if h.dhPub = s.dhPeerPub then Takes o s.skipped h.dhPub s.nRecv h.n
  else (s.ckRecv.isSome → Takes o s.skipped s.dhPeerPub s.nRecv h.pn) ∧ Takes o s.skipped h.dhPub 0 h.n

/-- A frame that opens, under no key set aside, has room for the keys it passes over. -/
def HasRoom (X : Dalek S) (o : RatchetOpts) (opens : Open S) (s : Ratchet S) : Call S → Prop
  | .encrypt .. => True
  | .decrypt _ now frame =>
    let s := s.prune o now
    ∀ h len opened, decodeHeader frame = some (h, len) → s.skipped.peek h.dhPub h.n = none →
      s.openFrame X o opens now h (frame.take len) (frame.drop len) = .ok opened → Room o s h

structure Bounded (o : RatchetOpts) (s : Ratchet S) : Prop where
  chains : s.skipped.chains.length ≤ o.maxChainsBack
  keys : ∀ p, (s.skipped.held p).length ≤ o.maxSkipPerChain.toNat

variable {s s' : Ratchet S} {now : Nat} {h : Header} {header ct pt : Bytes}

/-! ## What opens a frame does to the store -/

inductive Stores (o : RatchetOpts) (s : Ratchet S) (now : Nat) (h : Header) (s' : Ratchet S) : Prop
  | stashed : s'.skipped = s.skipped.dropKey h.dhPub h.n → s'.nRecv = s.nRecv → Stores o s now h s'
  | same {keys : List S.Key} : s.skipped.peek h.dhPub h.n = none → h.dhPub = s.dhPeerPub → s.nRecv ≤ h.n →
      keys.length = h.n - s.nRecv → hold o h.dhPub s.nRecv now s.skipped keys = .ok s'.skipped →
      s'.nRecv = u32 (h.n + 1) → Stores o s now h s'
  | turned {closing keys : List S.Key} {between : Skipped S.Key} : s.skipped.peek h.dhPub h.n = none →
      h.dhPub ≠ s.dhPeerPub → closing = [] ∨ s.ckRecv.isSome ∧ closing.length = h.pn - s.nRecv → keys.length = h.n →
      hold o s.dhPeerPub s.nRecv now s.skipped closing = .ok between →
      hold o h.dhPub 0 now between keys = .ok s'.skipped → s'.nRecv = u32 (h.n + 1) → Stores o s now h s'

theorem advance_ok {ck : S.Key} {start stop : Nat} {r : List S.Key × S.Key} (ha : advance o ck start stop = .ok r) :
    r.1.length = stop - start := by
  unfold advance at ha
  split at ha
  · cases ha
  · obtain rfl := Except.ok.inj ha
    exact KeyChain.length_walk ..

theorem closeChain_ok {closing : List S.Key} (hc : closeChain o s h = .ok closing) :
    closing = [] ∨ s.ckRecv.isSome ∧ closing.length = h.pn - s.nRecv := by
  unfold closeChain at hc
  cases hr : s.ckRecv with
  | none =>
      rw [hr] at hc
      cases hc
      exact Or.inl rfl
  | some ck =>
      rw [hr] at hc
      dsimp only at hc
      obtain ⟨w, ha, hw⟩ := bind_ok.mp hc
      obtain rfl := Except.ok.inj hw
      exact Or.inr ⟨rfl, advance_ok ha⟩

theorem openSameChain_stores {ck : S.Key} (hnone : s.skipped.peek h.dhPub h.n = none) (hpub : h.dhPub = s.dhPeerPub)
    (hok : openSameChain o opens s now ck h header ct = .ok (s', pt)) : Stores o s now h s' := by
  unfold openSameChain at hok
  split at hok
  · cases hok
  · rename_i hge
    obtain ⟨w, ha, hok⟩ := bind_ok.mp hok
    obtain ⟨pt', -, hok⟩ := bind_ok.mp hok
    obtain ⟨sk, hhold, hok⟩ := bind_ok.mp hok
    obtain ⟨rfl, -⟩ := Prod.mk.inj (Except.ok.inj hok)
    exact .same hnone hpub (Nat.le_of_not_lt hge) (advance_ok ha) hhold rfl

theorem openTurned_stores (hnone : s.skipped.peek h.dhPub h.n = none) (hpub : h.dhPub ≠ s.dhPeerPub)
    (hok : openTurned X o opens s now h header ct = .ok (s', pt)) : Stores o s now h s' := by
  unfold openTurned at hok
  split at hok
  · cases hok
  · split at hok
    · cases hok
    · obtain ⟨closing, hclose, hok⟩ := bind_ok.mp hok
      obtain ⟨ikm, -, hok⟩ := bind_ok.mp hok
      obtain ⟨w, ha, hok⟩ := bind_ok.mp hok
      obtain ⟨pt', -, hok⟩ := bind_ok.mp hok
      obtain ⟨between, hbetween, hok⟩ := bind_ok.mp hok
      obtain ⟨sk, hhold, hok⟩ := bind_ok.mp hok
      split at hok
      · obtain ⟨rfl, -⟩ := Prod.mk.inj (Except.ok.inj hok)
        exact .turned hnone hpub (closeChain_ok hclose) (advance_ok ha) hbetween hhold rfl
      · obtain ⟨rfl, -⟩ := Prod.mk.inj (Except.ok.inj hok)
        exact .turned hnone hpub (closeChain_ok hclose) (advance_ok ha) hbetween hhold rfl

theorem openFrame_stores (hok : openFrame X o opens s now h header ct = .ok (s', pt)) : Stores o s now h s' := by
  unfold openFrame at hok
  cases hp : s.skipped.peek h.dhPub h.n with
  | some key =>
      rw [hp] at hok
      dsimp only at hok
      obtain ⟨pt', -, hok⟩ := bind_ok.mp hok
      obtain ⟨rfl, -⟩ := Prod.mk.inj (Except.ok.inj hok)
      exact .stashed rfl rfl
  | none =>
      rw [hp] at hok
      dsimp only at hok
      split at hok
      · rename_i hpub
        split at hok
        · cases hok
        · exact openSameChain_stores hp hpub hok
      · rename_i hpub
        exact openTurned_stores hp hpub hok

/-! ## The store beside that of the other ratchet -/

/-- What the other store would hold, and a counter of four bytes. -/
structure Holding (o : RatchetOpts) (s : Ratchet S) (st : SkippedKeys S.Key) : Prop where
  same : s.skipped.Same st
  chains : st.chains.size ≤ o.maxChainsBack
  counter : s.nRecv < 2 ^ 32

theorem same_hold {sk sk' : Skipped S.Key} {st : SkippedKeys S.Key} (h : sk.Same st) (hc : st.chains.size ≤ o.maxChainsBack)
    {p : Pub} {start : Nat} {keys : List S.Key} (hlt : start + keys.length ≤ 2 ^ 32)
    (hok : hold o p start now sk keys = .ok sk') :
    sk'.Same (SkippedKeys.putAll o.maxChainsBack p (fun _ => now) st start keys) := by
  have hempty : o.maxChainsBack = 0 → sk.chains = [] := by
    intro hz
    have hlen := h.chains
    exact List.length_eq_zero_iff.mp (by omega)
  obtain ⟨hroom, hno⟩ := hold_spec (o := o) h p start now keys hlt hempty
  by_cases hr : 0 < o.maxChainsBack ∨ keys.length = 0
  · obtain ⟨sk'', hhold, hsame⟩ := hroom hr
    rw [hok] at hhold
    obtain rfl := Except.ok.inj hhold
    exact hsame
  · rw [hno hr] at hok
    cases hok

theorem Holding.prune {st : SkippedKeys S.Key} (hs : Holding o s st) (now : Nat) :
    Holding o (s.prune o now) (st.prune o.skippedTtlMs.toNat now) :=
  ⟨hs.same.prune, (SkippedKeys.size_prune ..).trans hs.chains, hs.counter⟩

theorem Takes.ts {sk : Skipped S.Key} {st : SkippedKeys S.Key} (h : sk.Same st) {p : Pub} {start stop : Nat}
    (ht : Takes o sk p start stop) : Eh2.Ratchet.Takes o.ts st p start stop := by
  rw [Takes, h.outside] at ht
  exact ht

/-- No chain holds more than the bound. -/
def Few (o : RatchetOpts) (st : SkippedKeys S.Key) : Prop := ∀ p, (st.held p).length ≤ o.maxSkipPerChain.toNat

variable {st : SkippedKeys S.Key}

theorem Few.putAll {p : Pub} {start stop : Nat} {now : Nat → Time} {keys : List S.Key} (hf : Few o st)
    (ht : Eh2.Ratchet.Takes o.ts st p start stop) (hlen : keys.length = stop - start) :
    Few o (SkippedKeys.putAll o.maxChainsBack p now st start keys) := by
  intro q
  by_cases hq : q = p
  · subst hq
    exact ht.held hlen
  · exact (SkippedKeys.length_held_putAll_ne hq).trans (hf q)

theorem Stores.holding (hst : Stores o s now h s') (hs : Holding o s st) (hpn : h.pn < 2 ^ 32) (hn : h.n < 2 ^ 32) :
    ∃ st', Holding o s' st' ∧ ((s.skipped.peek h.dhPub h.n = none → Room o s h) → Few o st → Few o st') := by
  cases hst with
  | stashed hsk hcount =>
      refine ⟨st.drop h.dhPub h.n, ⟨?_, (SkippedKeys.size_drop ..).trans hs.chains, ?_⟩, ?_⟩
      · rw [hsk]
        exact hs.same.dropKey h.dhPub h.n
      · rw [hcount]
        exact hs.counter
      · exact fun _ hf p => (SkippedKeys.length_held_drop ..).trans (hf p)
  | same hnone hpub hle hlen hhold hcount =>
      refine ⟨_, ⟨same_hold hs.same hs.chains (by omega) hhold, SkippedKeys.size_putAll hs.chains, ?_⟩, ?_⟩
      · rw [hcount]
        exact u32_lt _
      · intro hroom hf
        have hr := hroom hnone
        rw [Room, if_pos hpub] at hr
        exact hf.putAll (hr.ts hs.same) hlen
  | @turned closing keys between hnone hpub hclose hlen hbetween hhold hcount =>
      have hcounter := hs.counter
      have hshort : s.nRecv + closing.length ≤ 2 ^ 32 := by
        obtain rfl | ⟨-, hc⟩ := hclose
        · rw [List.length_nil]
          omega
        · omega
      have hmid := same_hold hs.same hs.chains hshort hbetween
      have hsize := @SkippedKeys.size_putAll _ _ s.dhPeerPub _ s.nRecv (fun _ => now) closing hs.chains
      refine ⟨_, ⟨same_hold hmid hsize (by omega) hhold, SkippedKeys.size_putAll hsize, ?_⟩, ?_⟩
      · rw [hcount]
        exact u32_lt _
      · intro hroom hf
        have hr := hroom hnone
        rw [Room, if_neg hpub] at hr
        have hclosed : Few o (SkippedKeys.putAll o.maxChainsBack s.dhPeerPub (fun _ => now) st s.nRecv closing) := by
          obtain rfl | ⟨hck, hc⟩ := hclose
          · exact hf
          · exact hf.putAll ((hr.1 hck).ts hs.same) hc
        refine hclosed.putAll (Nat.le_trans (Nat.add_le_add_right ?_ _) (hr.2.ts hs.same)) hlen
        -- the chain that closes is another one
        exact SkippedKeys.length_outside_mono (fun _ _ he => SkippedKeys.entry_putAll_ne hpub he) 0 h.n

/-! ## Over a run -/

theorem stepRoot_store (X : Dalek S) (s : Ratchet S) (me : S.Priv) (now : Nat) :
    (s.stepRoot X me now).1.skipped = s.skipped ∧ (s.stepRoot X me now).1.nRecv = s.nRecv := by
  unfold stepRoot
  dsimp only
  split <;> exact ⟨rfl, rfl⟩

theorem openSendChain_store (X : Dalek S) (o : RatchetOpts) (s : Ratchet S) (me : S.Priv) (kemKey : S.KemKey) (now : Nat) :
    (s.openSendChain X o me kemKey now).skipped = s.skipped ∧ (s.openSendChain X o me kemKey now).nRecv = s.nRecv := by
  unfold openSendChain
  dsimp only
  split <;> exact stepRoot_store X s me now

theorem encrypt_store {me : S.Priv} {kemKey : S.KemKey} {plaintext : Bytes} {r : Ratchet S × Bytes}
    (he : s.encrypt X o me kemKey now plaintext = some r) : r.1.skipped = s.skipped ∧ r.1.nRecv = s.nRecv := by
  unfold encrypt at he
  dsimp only at he
  split at he
  · obtain rfl := Option.some.inj he
    show (ite _ _ _ : Ratchet S).skipped = _ ∧ (ite _ _ _ : Ratchet S).nRecv = _
    split
    · exact openSendChain_store X o s me kemKey now
    · exact ⟨rfl, rfl⟩
  · cases he

theorem note_store (s : Ratchet S) (pubKey : Option Bytes) (m : S.Coins) :
    (s.notePeerPqPub pubKey m).skipped = s.skipped ∧ (s.notePeerPqPub pubKey m).nRecv = s.nRecv := by
  unfold notePeerPqPub
  split
  · exact ⟨rfl, rfl⟩
  · split
    · exact ⟨rfl, rfl⟩
    · split <;> exact ⟨rfl, rfl⟩

theorem Holding.of_store (hs : Holding o s st) (he : s'.skipped = s.skipped ∧ s'.nRecv = s.nRecv) : Holding o s' st :=
  ⟨he.1 ▸ hs.same, hs.chains, he.2 ▸ hs.counter⟩

theorem Holding.start (hs : HandshakeResult S) (now : Nat) : Holding o (fromHandshake hs now) ⟨.empty⟩ :=
  ⟨rfl, Nat.zero_le _, Nat.two_pow_pos 32⟩

theorem Few.start : Few (S := S) o ⟨.empty⟩ := fun _ => Nat.zero_le _

/-- What a call makes of the other store. -/
theorem Holding.call (hs : Holding o s st) (c : Call S) :
    ∃ st', Holding o (s.call X o opens c) st' ∧ (HasRoom X o opens s c → Few o st → Few o st') := by
  cases c with
  | encrypt newDh kemKey now plaintext =>
      refine ⟨st, ?_, fun _ hf => hf⟩
      rw [Ratchet.call]
      cases he : s.encrypt X o newDh kemKey now plaintext with
      | none => exact hs
      | some r => exact hs.of_store (encrypt_store he)
  | decrypt coins now frame =>
      have hp := hs.prune now
      have hfew : Few o st → Few o (st.prune o.skippedTtlMs.toNat now) :=
        fun hf q => (SkippedKeys.length_held_prune ..).trans (hf q)
      rw [Ratchet.call, Ratchet.decrypt]
      cases hd : Core.decodeHeader frame with
      | none => exact ⟨st, hs, fun _ hf => hf⟩
      | some r =>
          obtain ⟨h, len⟩ := r
          dsimp only
          obtain ⟨hn, hpn⟩ := decodeHeader_counters (by rw [← decodeHeader_eq]; exact hd)
          cases hok : openFrame X o opens (s.prune o now) now h (frame.take len) (frame.drop len) with
          | error e => exact ⟨_, hp, fun _ => hfew⟩
          | ok opened =>
              obtain ⟨s₁, pt⟩ := opened
              obtain ⟨st', hst', hkeys⟩ := (openFrame_stores hok).holding hp hpn hn
              refine ⟨st', hst'.of_store (note_store s₁ h.pqPub coins), ?_⟩
              exact fun hroom hf => hkeys (fun hnone => hroom h len _ hd hnone hok) (hfew hf)

theorem Bounded.of_holding (hs : Holding o s st) (hf : Few o st) : Bounded o s where
  chains := hs.same.chains ▸ hs.chains
  keys p := hs.same.held p ▸ hf p

/-- As `Eh2.Ratchet.store_bounded`. -/
theorem store_bounded (X : Dalek S) (o : RatchetOpts) (opens : Open S) (hs : HandshakeResult S) (now : Nat) :
    (∀ s, Reach (call X o opens) (fun _ _ => True) (fromHandshake hs now) s → s.skipped.chains.length ≤ o.maxChainsBack) ∧
      ∀ s, Reach (call X o opens) (HasRoom X o opens) (fromHandshake hs now) s → Bounded o s := by
  constructor
  · intro s h
    obtain ⟨st, hst⟩ := h.invariant (I := fun s => ∃ st, Holding o s st) ⟨_, Holding.start hs now⟩
      fun s c ⟨st, hst⟩ _ => (hst.call c).imp fun _ h => h.1
    exact hst.same.chains ▸ hst.chains
  · intro s h
    obtain ⟨st, hst, hf⟩ := h.invariant (I := fun s => ∃ st, Holding o s st ∧ Few o st)
      ⟨_, Holding.start hs now, Few.start⟩ fun s c ⟨st, hst, hf⟩ hc => (hst.call c).imp fun _ h => ⟨h.1, h.2 hc hf⟩
    exact .of_holding hst hf

end Ratchet

/-- Either store never holds keys of more chains than its options allow; and it never holds more keys of one than they
allow as long as no frame that verifies passes over more than there is room for. -/
theorem stores_bounded (X : Dalek S) (o : RatchetOpts) (opens : Open S) (ots : Eh2.Opts) (role : Role)
    (hs : HandshakeResult S) (now : Time) (nowMs : Nat) :
    ((∀ s, Reach (Eh2.Ratchet.act ots role) (fun _ _ => True) (Eh2.ratchetFrom hs now) s →
        s.skipped.chains.size ≤ ots.maxChains) ∧
      ∀ s, Reach (Eh2.Ratchet.act ots role) (Eh2.Ratchet.HasRoom ots) (Eh2.ratchetFrom hs now) s →
        Eh2.Ratchet.Bounded ots s) ∧
    ((∀ s, Reach (Ratchet.call X o opens) (fun _ _ => True) (Ratchet.fromHandshake hs nowMs) s →
        s.skipped.chains.length ≤ o.maxChainsBack) ∧
      ∀ s, Reach (Ratchet.call X o opens) (Ratchet.HasRoom X o opens) (Ratchet.fromHandshake hs nowMs) s →
        Ratchet.Bounded o s) :=
  ⟨Eh2.Ratchet.store_bounded ots role hs now, Ratchet.store_bounded X o opens hs nowMs⟩

namespace Symbolic

open EncedoChat.Eh2.Symbolic (suite afterJump freshResponder jump jumpHeader verifies)

/-- One such jump has room in either. -/
theorem jump_bounded : Eh2.Ratchet.Bounded {} (afterJump freshResponder 1000) ∧
    Ratchet.Bounded {} ((Ratchet.fromHandshake responder 0).call dalek {} verifies (.decrypt (0 : UInt8) 0 (jump 1000))) := by
  have hdec : Eh2.decodeHeader (jump 1000) = some (jumpHeader 1000, Eh2.HDR_LEN) := by decide
  have hb := stores_bounded dalek {} verifies {} .responder responder 0 0
  constructor
  · refine hb.1.2 _ (.step _ .start ?_)
    intro h len key pt hd _ _ _
    obtain ⟨rfl, -⟩ := Prod.mk.inj (Option.some.inj (hd.symm.trans hdec))
    show 0 + (1000 - 0) ≤ 1000
    decide
  · refine hb.2.2 _ (.step _ .start ?_)
    intro h len opened hd _ _
    rw [decodeHeader_eq, hdec] at hd
    obtain ⟨rfl, -⟩ := Prod.mk.inj (Option.some.inj hd)
    show 0 + (1000 - 0) ≤ 1000
    decide

end Symbolic

end EncedoChat.Core
