import EncedoChat.Groups.Minted
import EncedoChat.Groups.Restore

/-!
# Counters that are not used again

No counter of a published frame seals another text on its chain, over any number of restarts, as long as sends on a
session do not overlap and the chain that a blob brings back is in nobody's hands and past every frame published on it.
-/

namespace EncedoChat.Groups

open EncedoChat.Group (Suite Identities Env Session SendChain Gid SkdFields SkdOutcome SkdError Open Time ReceiverOpts
  aeadBox encodeHeader decodeHeader newSendChain)

variable {S : Suite} {I : Identities} {E : Env S I} {B : Backend}

/-- The counter in the header that was sealed. -/
def ctrOf (b : Box S.Key S.Nonce) : Nat := (decodeHeader b.aad).ctr

/-- The box was sealed with a key of the chain. -/
def OfChain (seed : S.Key) (b : Box S.Key S.Nonce) : Prop := ∃ k, b.key = S.chain.keyAt seed k

/-- One counter of one chain sealed both. -/
def Reuses (Start : S.Key → Prop) (f b : Box S.Key S.Nonce) : Prop :=
  ctrOf b = ctrOf f ∧ ∃ seed, Start seed ∧ OfChain seed f ∧ OfChain seed b

/-- A call of `send` that has yet to move its chain. -/
def Call.holdsChain (on : ChainRef) : Call E B → Bool
  | .sending _ _ (.tagging _) => false
  | .sending on' _ _ => decide (on' = on)
  | _ => false

namespace Layer

/-- No counter of a frame that was published seals again later. -/
def NoReuse (Start : S.Key → Prop) (log : List (Event S)) : Prop :=
  log.Pairwise fun later earlier => ∀ b frame f, later = .sealed b → earlier = .published frame f → ¬Reuses Start f b

/-- Nobody in memory has the chain, and it is past every frame published on it. -/
def Current (Start : S.Key → Prop) (w : Layer E B) (c : S.Key × Nat) : Prop :=
  ∀ seed, Start seed → OnChain seed c.1 c.2 → (∀ on d, w.chain on = some d → ¬OnChain seed d.key d.n) ∧
    ∀ frame f, .published frame f ∈ w.log → OfChain seed f → ctrOf f < c.2

/-- Sending chains are drawn afresh, no send starts before the one under way has moved the chain, a counter fits its four
bytes, and a chain that comes back is current. -/
def Counting (Start : S.Key → Prop) (w : Layer E B) : LayerAct E B → Prop
  | .send _ gid _ => ∀ s, (w.infos.get gid).bind GroupInfo.room = some s →
      (∀ e ∈ w.calls.entries, e.2.holdsChain (.current s) = false) ∧ ∀ c, w.chain (.current s) = some c → c.n < 2 ^ 32
  | .resume id random _ =>
    match w.engine.tasks.get id, w.calls.get id with
    | some (.creating ..), _ => Start random ∧ random ∉ w.drawn
    | none, some (.restoring _ saved (some _) _) =>
      ∀ c, GroupManager.chainsOf saved.snap = some c → w.Current Start c.send
    | _, _ => True
  | _ => True

/-! ## The chains of a moment -/

theorem chain_current (w : Layer E B) (s : Nat) :
    w.chain (.current s) = (w.engine.heap.map GroupSession.send_)[s]? := by
  rw [chain, List.getElem?_map]

variable {Start : S.Key → Prop} {w w' : Layer E B} {id : Nat} {c : Call E B} {on : ChainRef}

/-- A position of a chain that was drawn. -/
def Drawn (w : Layer E B) (c : S.Key × Nat) : Prop := ∃ seed ∈ w.drawn, OnChain seed c.1 c.2

def SnapFits (w : Layer E B) (s : GroupSnapshot E B) : Prop :=
  ∀ c, GroupManager.chainsOf s = some c → w.Drawn c.send

/-- The chain object is there, and the chain it is on. -/
structure On (w : Layer E B) (on : ChainRef) (c : SendChain S) (seed : S.Key) : Prop where
  chain : w.chain on = some c
  drawn : seed ∈ w.drawn
  onChain : OnChain seed c.key c.n

/-- Where a call of `send` stands with its chain. -/
def SealFits (w : Layer E B) (on : ChainRef) : Sealing S → Prop
  | .keyed header _ key => ∃ c seed, w.On on c seed ∧ key = S.chain.keyAt seed c.n ∧ (decodeHeader header).ctr = c.n
  | .encrypting b => ∃ c seed, w.On on c seed ∧ b.key = S.chain.keyAt seed c.n ∧ ctrOf b = c.n
  | .stepping b next => ∃ c seed, w.On on c seed ∧ b.key = S.chain.keyAt seed c.n ∧ ctrOf b = c.n ∧
      next = S.chain.chainNext c.key
  | .tagging b => ∃ c seed, w.On on c seed ∧ b.key = S.chain.keyAt seed (ctrOf b) ∧ ctrOf b < c.n

end Layer

/-- A snapshot that a call holds. -/
def Call.Snaps : Call E B → GroupSnapshot E B → Prop
  | .sealing _ saved rest, s => s = saved.snap ∨ s ∈ rest
  | .unsealing saved _, s => s = saved.snap
  | .restoring _ saved _ _, s => s = saved.snap
  | _, _ => False

/-- A call that holds a snapshot, or stands with a chain. -/
def Call.laden : Call E B → Bool
  | .sealing .. | .unsealing .. | .restoring .. | .sending .. => true
  | _ => false

namespace Layer

variable {Start : S.Key → Prop} {w w' : Layer E B} {id : Nat} {c : Call E B} {on : ChainRef}

structure CallFits (w : Layer E B) (c : Call E B) : Prop where
  snaps : ∀ s, c.Snaps s → w.SnapFits s
  sending : ∀ on view st, c = .sending on view st → w.SealFits on st

/-- The box was sealed at the counter it says, on a chain that was drawn. -/
def Made (w : Layer E B) (b : Box S.Key S.Nonce) : Prop := ∃ seed ∈ w.drawn, b.key = S.chain.keyAt seed (ctrOf b)

/-- Every chain in memory that the box was sealed on is past it. -/
def Passed (Start : S.Key → Prop) (w : Layer E B) (b : Box S.Key S.Nonce) : Prop :=
  ∀ on c seed, w.chain on = some c → Start seed → OnChain seed c.key c.n → OfChain seed b → ctrOf b < c.n

structure Counts (Start : S.Key → Prop) (w : Layer E B) : Prop where
  start : ∀ k ∈ w.drawn, Start k
  chains : ∀ on c, w.chain on = some c → w.Drawn (c.key, c.n)
  apart : ∀ on on' c c' seed, w.chain on = some c → w.chain on' = some c' → Start seed → OnChain seed c.key c.n →
    OnChain seed c'.key c'.n → on = on'
  held : ∀ gid r, w.engine.recs.get gid = some r → r.session < w.engine.heap.length
  blobs : ∀ gid saved, w.store.blobs.get gid = some saved → w.SnapFits saved.snap
  calls : ∀ id c, w.calls.get id = some c → w.CallFits c
  alone : ∀ i j c d on, w.calls.get i = some c → w.calls.get j = some d → c.holdsChain on = true →
    d.holdsChain on = true → i = j
  made : ∀ frame b, .published frame b ∈ w.log → w.Made b
  passed : ∀ frame b, .published frame b ∈ w.log → w.Passed Start b
  noReuse : NoReuse Start w.log

theorem counts_start (me : I.Pub) (base : Bool) : (start me base : Layer E B).Counts Start := by
  constructor
  · intro k hk
    cases hk
  · intro on c hc
    cases on <;> cases hc
  · intro on on' c c' seed hc
    cases on <;> cases hc
  · intro gid r hr
    cases hr
  · intro gid saved hs
    cases hs
  · intro id c hc
    cases hc
  · intro i j c d on hc
    cases hc
  · intro frame b hb
    cases hb
  · intro frame b hb
    cases hb
  · exact List.Pairwise.nil

/-! ## Chains stay as they are -/

/-- A call that holds no chain, and snapshots that fit. -/
structure Calm (w : Layer E B) (c : Call E B) : Prop where
  snaps : ∀ s, c.Snaps s → w.SnapFits s
  idle : ∀ on view st, c ≠ .sending on view st

theorem Calm.of_light (hc : c.laden = false) : w.Calm c := by
  cases c with
  | sealing gid saved rest => cases hc
  | unsealing saved rest => cases hc
  | restoring gid saved session rest => cases hc
  | sending on view st => cases hc
  | _ => exact ⟨fun s hs => False.elim hs, fun _ _ _ he => by cases he⟩

theorem Calm.holdsChain (h : w.Calm c) (on : ChainRef) : c.holdsChain on = false := by
  cases c with
  | sending on' view st => exact absurd rfl (h.idle on' view st)
  | _ => rfl

theorem SealFits.mono {st : Sealing S} {on' : ChainRef} (h : w.SealFits on st) (hchain : w'.chain on' = w.chain on)
    (hdrawn : ∀ k ∈ w.drawn, k ∈ w'.drawn) : w'.SealFits on' st := by
  have hon : ∀ {c seed}, w.On on c seed → w'.On on' c seed :=
    fun h => ⟨hchain.trans h.chain, hdrawn _ h.drawn, h.onChain⟩
  cases st with
  | keyed header pt key =>
      obtain ⟨c, seed, hc, hs⟩ := h
      exact ⟨c, seed, hon hc, hs⟩
  | encrypting b =>
      obtain ⟨c, seed, hc, hs⟩ := h
      exact ⟨c, seed, hon hc, hs⟩
  | stepping b next =>
      obtain ⟨c, seed, hc, hs⟩ := h
      exact ⟨c, seed, hon hc, hs⟩
  | tagging b =>
      obtain ⟨c, seed, hc, hs⟩ := h
      exact ⟨c, seed, hon hc, hs⟩

theorem SealFits.chain {st : Sealing S} (h : w.SealFits on st) : ∃ c, w.chain on = some c := by
  cases st with
  | keyed header pt key => exact ⟨_, h.choose_spec.choose_spec.1.chain⟩
  | encrypting b => exact ⟨_, h.choose_spec.choose_spec.1.chain⟩
  | stepping b next => exact ⟨_, h.choose_spec.choose_spec.1.chain⟩
  | tagging b => exact ⟨_, h.choose_spec.choose_spec.1.chain⟩

theorem SnapFits.mono {s : GroupSnapshot E B} (h : w.SnapFits s) (hdrawn : ∀ k ∈ w.drawn, k ∈ w'.drawn) :
    w'.SnapFits s := by
  intro c hc
  obtain ⟨seed, hs, hon⟩ := h c hc
  exact ⟨seed, hdrawn seed hs, hon⟩

theorem CallFits.mono (h : w.CallFits c) (hchain : ∀ on view st, c = .sending on view st → w'.chain on = w.chain on)
    (hdrawn : ∀ k ∈ w.drawn, k ∈ w'.drawn) : w'.CallFits c where
  snaps s hs := (h.snaps s hs).mono hdrawn
  sending on view st he := (h.sending on view st he).mono (hchain on view st he) hdrawn

/-- Where a chain in memory comes from: it was there and no further along, or it is new and current. -/
inductive Came (Start : S.Key → Prop) (w w' : Layer E B) (move : ChainRef → ChainRef) (place : ChainRef) :
    ChainRef → SendChain S → Prop
  | old (on : ChainRef) {c d : SendChain S} : w.chain on = some d → d.n ≤ c.n →
      (∀ seed, OnChain seed c.key c.n ↔ OnChain seed d.key d.n) → Came Start w w' move place (move on) c
  | new {c : SendChain S} : w'.Drawn (c.key, c.n) → w.Current Start (c.key, c.n) → Came Start w w' move place place c

theorem Counts.shift (h : w.Counts Start) (move : ChainRef → ChainRef) (place : ChainRef) (hlog : w'.log = w.log)
    (hstart : ∀ k ∈ w'.drawn, Start k) (hdrawn : ∀ k ∈ w.drawn, k ∈ w'.drawn)
    (hchain : ∀ on c, w'.chain on = some c → Came Start w w' move place on c)
    (hheld : ∀ gid r, w'.engine.recs.get gid = some r → r.session < w'.engine.heap.length)
    (hblobs : ∀ gid saved, w'.store.blobs.get gid = some saved → w.SnapFits saved.snap)
    (hcalls : ∀ i c, w'.calls.get i = some c → w'.CallFits c)
    (halone : ∀ i j c d on, w'.calls.get i = some c → w'.calls.get j = some d → c.holdsChain on = true →
      d.holdsChain on = true → i = j) : w'.Counts Start where
  start := hstart
  chains on c hc := by
    cases hchain on c hc with
    | old _ hd _ hon =>
        obtain ⟨seed, hs, hseed⟩ := h.chains _ _ hd
        exact ⟨seed, hdrawn seed hs, (hon seed).mpr hseed⟩
    | new hc _ => exact hc
  apart on₁ on₂ c₁ c₂ seed h₁ h₂ hs hc₁ hc₂ := by
    cases hchain on₁ c₁ h₁ with
    | old _ hd₁ _ hon₁ =>
        cases hchain on₂ c₂ h₂ with
        | old _ hd₂ _ hon₂ => rw [h.apart _ _ _ _ seed hd₁ hd₂ hs ((hon₁ seed).mp hc₁) ((hon₂ seed).mp hc₂)]
        | new _ hcur => exact absurd ((hon₁ seed).mp hc₁) ((hcur seed hs hc₂).1 _ _ hd₁)
    | new _ hcur =>
        cases hchain on₂ c₂ h₂ with
        | old _ hd₂ _ hon₂ => exact absurd ((hon₂ seed).mp hc₂) ((hcur seed hs hc₁).1 _ _ hd₂)
        | new _ _ => rfl
  held := hheld
  blobs gid saved hs := (hblobs gid saved hs).mono hdrawn
  calls := hcalls
  alone := halone
  made frame b hb := by
    obtain ⟨seed, hs, hkey⟩ := h.made frame b (hlog ▸ hb)
    exact ⟨seed, hdrawn seed hs, hkey⟩
  passed frame b hb on c seed hc hs hcs hof := by
    cases hchain on c hc with
    | old _ hd hle hon => exact (h.passed frame b (hlog ▸ hb) _ _ seed hd hs ((hon seed).mp hcs) hof).trans_le hle
    | new _ hcur => exact (hcur seed hs hcs).2 frame b (hlog ▸ hb) hof
  noReuse := by
    rw [hlog]
    exact h.noReuse

theorem Came.same (hchain : ∀ on, w'.chain on = w.chain on) {on : ChainRef} {c : SendChain S} (hc : w'.chain on = some c)
    (place : ChainRef) : Came Start w w' (fun on => on) place on c :=
  .old on (hchain on ▸ hc) (Nat.le_refl _) fun _ => Iff.rfl

theorem Counts.keep (h : w.Counts Start) (hchain : ∀ on, w'.chain on = w.chain on) (hdrawn : w'.drawn = w.drawn)
    (hlog : w'.log = w.log)
    (hheld : ∀ gid r, w'.engine.recs.get gid = some r → r.session < w'.engine.heap.length)
    (hblobs : ∀ gid saved, w'.store.blobs.get gid = some saved → w.SnapFits saved.snap)
    (hcalls : ∀ i c, w'.calls.get i = some c → w.calls.get i = some c ∨ w.Calm c) : w'.Counts Start := by
  have hmem : ∀ k ∈ w.drawn, k ∈ w'.drawn := fun k hk => hdrawn ▸ hk
  refine h.shift _ _ hlog (fun k hk => h.start k (hdrawn ▸ hk)) hmem (fun on c hc => .same hchain hc (.replaced 0)) hheld
    hblobs ?_ ?_
  · intro i c hc
    obtain hc | hc := hcalls i c hc
    · exact (h.calls i c hc).mono (fun on _ _ _ => hchain on) hmem
    · exact ⟨fun s hs => (hc.snaps s hs).mono hmem, fun on view st he => absurd he (hc.idle on view st)⟩
  · intro i j c d on hc hd hci hdj
    obtain hc | hc := hcalls i c hc
    · obtain hd | hd := hcalls j d hd
      · exact h.alone i j c d on hc hd hci hdj
      · rw [hd.holdsChain] at hdj
        cases hdj
    · rw [hc.holdsChain] at hci
      cases hci

theorem Counts.put (h : w.Counts Start) (hc : w.Calm c) : (w.put id c).Counts Start := by
  refine h.keep (fun on => by cases on <;> rfl) rfl rfl h.held h.blobs ?_
  intro i d hd
  obtain ⟨-, rfl⟩ | ⟨-, hd⟩ := OrdMap.get_set_some hd
  · exact Or.inr hc
  · exact Or.inl hd

/-- A call that holds nothing. -/
theorem Counts.putQuiet (h : w.Counts Start) (hc : c.laden = false) : (w.put id c).Counts Start := h.put (.of_light hc)

theorem Counts.done (h : w.Counts Start) : (w.done id).Counts Start :=
  h.keep (fun on => by cases on <;> rfl) rfl rfl h.held h.blobs fun _ _ hd => Or.inl (OrdMap.get_delete_some hd).2

theorem Counts.setInfo (h : w.Counts Start) (gid : Bytes) (g : GroupInfo E) : (w.setInfo gid g).Counts Start :=
  h.keep (fun on => by cases on <;> rfl) rfl rfl h.held h.blobs fun _ _ hd => Or.inl hd

variable {K : RosterKeys E B}

theorem Counts.snapshot (T : Texts E) (h : w.Counts Start) {s : GroupSnapshot E B} (hs : s ∈ w.engine.snapshot) :
    w.SnapFits s := by
  obtain ⟨⟨gid, r⟩, hr, rfl⟩ := List.mem_map.mp hs
  have hlt := h.held gid r (OrdMap.get_eq_some.mpr hr)
  have hg := List.getElem?_eq_getElem hlt
  intro c hc
  rw [GroupManager.chainsOf_snapshot T] at hc
  cases hc
  have hchain : w.chain (.current r.session) = some w.engine.heap[r.session].send_ := by rw [chain, hg, Option.map_some]
  obtain ⟨seed, hd, hon⟩ := h.chains _ _ hchain
  refine ⟨seed, hd, ?_⟩
  simpa [Engine.current, hg, GroupSession.exportChains] using hon

theorem Counts.leads (h : w.Counts Start) {snaps : GroupSnapshot E B → Prop} (hs : ∀ s, snaps s → w.SnapFits s)
    (hl : w.Leads K id snaps w') : w'.Counts Start := by
  cases hl with
  | done => exact h.done
  | @put c hc =>
      cases c with
      | sealing gid saved rest => exact h.put ⟨fun s hm => hs s (hc.2 s hm), fun _ _ _ he => by cases he⟩
      | opening gid session next => exact h.putQuiet rfl
      | listing stored => exact h.putQuiet rfl
      | reading gids => exact h.putQuiet rfl
      | handing gid m skd todo save => exact h.putQuiet rfl
      | _ => exact hc.elim

theorem Counts.open_ (h : w.Counts Start) (gid : Bytes) (next : Opened) : (w.open_ id gid next).Counts Start :=
  h.leads (fun _ hs => False.elim hs) (leads_open (fun _ _ _ => none) w id (fun _ => False) gid next)

theorem Counts.persist (T : Texts E) (h : w.Counts Start) : (w.persist id).Counts Start :=
  h.leads (fun _ hs => h.snapshot T hs) (leads_persist (fun _ _ _ => none) w id)

/-! ## Sending -/

/-- Two chains in memory on one chain that was drawn are one object. -/
theorem Counts.same (h : w.Counts Start) (hideal : S.chain.Ideal Start) {on' : ChainRef} {c c' : SendChain S}
    {seed seed' : S.Key} (hon : w.On on c seed) (hon' : w.chain on' = some c') (hs : Start seed')
    (hc' : OnChain seed' c'.key c'.n) {k k' : Nat} (hk : S.chain.keyAt seed k = S.chain.keyAt seed' k') :
    on' = on ∧ c' = c ∧ seed' = seed ∧ k' = k := by
  obtain ⟨rfl, rfl⟩ := hideal.keyAt_eq (h.start seed hon.drawn) hs hk
  obtain rfl := h.apart on on' c c' seed hon.chain hon' hs hon.onChain hc'
  have hc := hon.chain
  rw [hon'] at hc
  exact ⟨rfl, Option.some.inj hc, rfl, rfl⟩

/-- A call of `send` waits, its chain where it was; no other call has the chain. -/
theorem Counts.putSend (h : w.Counts Start) {view : Session I} {st : Sealing S} (hfits : w.SealFits on st)
    (halone : ∀ j d, w.calls.get j = some d → d.holdsChain on = true → j = id) :
    (w.put id (.sending on view st)).Counts Start := by
  have hchain : ∀ on', (w.put id (.sending on view st)).chain on' = w.chain on' := fun on' => by cases on' <;> rfl
  refine h.shift _ _ rfl h.start (fun _ hk => hk) (fun on' c hc => .same hchain hc on) h.held h.blobs ?_ ?_
  · intro i d hd
    obtain ⟨-, rfl⟩ | ⟨-, hd⟩ := OrdMap.get_set_some hd
    · refine ⟨fun s hs => False.elim hs, ?_⟩
      intro on' view' st' he
      cases he
      exact hfits.mono (hchain on) fun k hk => hk
    · exact (h.calls i d hd).mono (fun on' _ _ _ => hchain on') fun k hk => hk
  · intro i j c d on' hi hj hci hdj
    have hon : (Call.sending on view st : Call E B).holdsChain on' = true → on = on' := by
      intro hhold
      cases st with
      | tagging b => cases hhold
      | _ => exact of_decide_eq_true hhold
    obtain ⟨rfl, rfl⟩ | ⟨-, hi⟩ := OrdMap.get_set_some hi <;> obtain ⟨hj', rfl⟩ | ⟨-, hj⟩ := OrdMap.get_set_some hj
    · exact hj'.symm
    · obtain rfl := hon hci
      exact (halone j d hj hdj).symm
    · obtain rfl := hon hdj
      exact (halone i c hi hci).trans hj'.symm
    · exact h.alone i j c d on' hi hj hci hdj

/-- A seal that repeats no published frame, or a frame that its chain is past. -/
theorem Counts.note (h : w.Counts Start) {e : Event S}
    (hpub : ∀ frame b, e = .published frame b → w.Made b ∧ w.Passed Start b)
    (hseal : ∀ b, e = .sealed b → ∀ frame f, .published frame f ∈ w.log → ¬Reuses Start f b) :
    ({ w with log := e :: w.log } : Layer E B).Counts Start where
  start := h.start
  chains := h.chains
  apart := h.apart
  held := h.held
  blobs := h.blobs
  calls i c hc := by
    obtain ⟨hsnaps, hsending⟩ := h.calls i c hc
    exact ⟨hsnaps, fun on view st he => (hsending on view st he).mono rfl fun k hk => hk⟩
  alone := h.alone
  made frame b hb := by
    obtain hb | hb := List.mem_cons.mp hb
    · exact (hpub frame b hb.symm).1
    · exact h.made frame b hb
  passed frame b hb := by
    obtain hb | hb := List.mem_cons.mp hb
    · exact (hpub frame b hb.symm).2
    · exact h.passed frame b hb
  noReuse := by
    refine List.pairwise_cons.mpr ⟨?_, h.noReuse⟩
    rintro e' he' b frame f rfl rfl
    exact hseal b rfl frame f he'

/-- A seal at the counter its chain is at. -/
theorem Counts.sealed (h : w.Counts Start) (hideal : S.chain.Ideal Start) {d : SendChain S} {seed : S.Key}
    (hon : w.On on d seed) {b : Box S.Key S.Nonce} (hkey : b.key = S.chain.keyAt seed d.n) (hctr : ctrOf b = d.n) :
    ({ w with log := .sealed b :: w.log } : Layer E B).Counts Start := by
  apply h.note (fun frame b' he => by cases he)
  rintro b' hb' frame f hf ⟨hsame, seed', hs', hfof, k, hk⟩
  cases hb'
  obtain ⟨rfl, -⟩ := hideal.keyAt_eq (h.start seed hon.drawn) hs' (hkey.symm.trans hk)
  have hlt := h.passed frame f hf on d seed hon.chain hs' hon.onChain hfof
  rw [← hsame, hctr] at hlt
  exact Nat.lt_irrefl _ hlt

/-- A frame goes out that its chain is past. -/
theorem Counts.published (h : w.Counts Start) (hideal : S.chain.Ideal Start) {d : SendChain S} {seed : S.Key}
    (hon : w.On on d seed) {b : Box S.Key S.Nonce} (frame : Bytes) (hkey : b.key = S.chain.keyAt seed (ctrOf b))
    (hlt : ctrOf b < d.n) : ({ w with log := .published frame b :: w.log } : Layer E B).Counts Start := by
  refine h.note ?_ fun b' he => by cases he
  intro frame' f he
  cases he
  refine ⟨⟨seed, hon.drawn, hkey⟩, ?_⟩
  rintro on' c seed' hc' hs hc ⟨k, hk⟩
  obtain ⟨-, rfl, -, -⟩ := h.same hideal hon hc' hs hc (hkey.symm.trans hk)
  exact hlt

theorem chain_setChain (w : Layer E B) (c : SendChain S) (on on' : ChainRef) :
    (w.setChain c on).chain on' = if on' = on then (w.chain on).map fun _ => c else w.chain on' := by
  by_cases he : on' = on
  · subst he
    rw [if_pos rfl]
    cases on' with
    | current s =>
        simp only [chain, setChain, List.getElem?_modify_eq]
        cases w.engine.heap[s]? <;> rfl
    | replaced i =>
        simp only [chain, setChain, List.getElem?_modify_eq]
        cases w.replaced[i]? <;> rfl
  · rw [if_neg he]
    cases on with
    | current s =>
        cases on' with
        | current s' =>
            have hne : s ≠ s' := fun h => he (congrArg _ h.symm)
            simp only [chain, setChain, List.getElem?_modify_ne _ _ hne]
        | replaced i => rfl
    | replaced i =>
        cases on' with
        | current s => rfl
        | replaced i' =>
            have hne : i ≠ i' := fun h => he (congrArg _ h.symm)
            simp only [chain, setChain, List.getElem?_modify_ne _ _ hne]

/-- A call moves its chain. -/
theorem Counts.advance (h : w.Counts Start) (hideal : S.chain.Ideal Start) {view : Session I}
    {b : Box S.Key S.Nonce} {next : S.Key} {d : SendChain S}
    (hc : w.calls.get id = some (.sending on view (.stepping b next))) (hd : w.chain on = some d) :
    ((w.setChain ⟨next, d.n + 1⟩ on).put id (.sending on view (.tagging b))).Counts Start := by
  obtain ⟨d', seed, hon, hkey, hctr, rfl⟩ := (h.calls id _ hc).sending on view _ rfl
  obtain rfl : d' = d := Option.some.inj (hon.chain.symm.trans hd)
  generalize hw : w.setChain ⟨S.chain.chainNext d'.key, d'.n + 1⟩ on = w₁
  have hchain : ∀ on', w₁.chain on' = if on' = on then some ⟨S.chain.chainNext d'.key, d'.n + 1⟩ else w.chain on' := by
    intro on'
    rw [← hw, chain_setChain, hd, Option.map_some]
  obtain ⟨hdrawn, hlog, hcalls, hstore, hrecs, hlen⟩ : w₁.drawn = w.drawn ∧ w₁.log = w.log ∧ w₁.calls = w.calls ∧
      w₁.store = w.store ∧ w₁.engine.recs = w.engine.recs ∧ w₁.engine.heap.length = w.engine.heap.length := by
    rw [← hw]
    cases on with
    | current s => exact ⟨rfl, rfl, rfl, rfl, rfl, List.length_modify ..⟩
    | replaced i => exact ⟨rfl, rfl, rfl, rfl, rfl, rfl⟩
  have hmem : ∀ k ∈ w.drawn, k ∈ w₁.drawn := fun k hk => hdrawn ▸ hk
  have hnext : ∀ seed', OnChain seed' (S.chain.chainNext d'.key) (d'.n + 1) ↔ OnChain seed' d'.key d'.n := by
    intro seed'
    rw [OnChain, OnChain, KeyChain.chainAt_succ]
    exact ⟨hideal.chainNext_inj, congrArg S.chain.chainNext⟩
  have hnow : w₁.On on ⟨S.chain.chainNext d'.key, d'.n + 1⟩ seed :=
    ⟨(hchain on).trans (if_pos rfl), hmem _ hon.drawn, (hnext seed).mpr hon.onChain⟩
  refine h.shift (fun on' => on') on hlog (fun k hk => h.start k (hdrawn ▸ hk)) hmem ?_ ?_ ?_ ?_ ?_
  · intro on' c hc'
    have hc' : w₁.chain on' = some c := hc'
    rw [hchain] at hc'
    split at hc'
    · rename_i he
      cases hc'
      exact .old on' (he ▸ hd) (Nat.le_succ _) hnext
    · exact .old on' hc' (Nat.le_refl _) fun _ => Iff.rfl
  · intro gid r hr
    exact (h.held gid r (hrecs ▸ hr)).trans_eq hlen.symm
  · intro gid saved hs
    exact h.blobs gid saved (hstore ▸ hs)
  · intro i c hi
    obtain ⟨rfl, rfl⟩ | ⟨hne, hi'⟩ := OrdMap.get_set_some hi
    · refine ⟨fun s hs => False.elim hs, ?_⟩
      intro on' view' st he
      cases he
      refine ⟨_, seed, ⟨hnow.chain, hnow.drawn, hnow.onChain⟩, ?_, ?_⟩
      · rw [hkey, hctr]
      · rw [hctr]
        exact Nat.lt_succ_self _
    · rw [hcalls] at hi'
      have hfits := h.calls i c hi'
      cases c with
      | sending on' view' st =>
          by_cases ho : on' = on
          · subst ho
            refine ⟨fun s hs => False.elim hs, ?_⟩
            intro on' view' st' he
            cases he
            cases st with
            | tagging f =>
                obtain ⟨c₀, seed₀, hon₀, hkey₀, hlt⟩ := hfits.sending _ _ _ rfl
                obtain rfl : c₀ = d' := Option.some.inj (hon₀.chain.symm.trans hd)
                exact ⟨_, seed₀, ⟨hnow.chain, hmem _ hon₀.drawn, (hnext seed₀).mpr hon₀.onChain⟩, hkey₀,
                  Nat.lt_succ_of_lt hlt⟩
            | _ =>
                -- no other call has yet to move this chain
                refine absurd (h.alone i id _ _ on' hi' hc ?_ ?_) hne
                · simp [Call.holdsChain]
                · simp [Call.holdsChain]
          · refine hfits.mono ?_ hmem
            intro on'' view'' st' he
            cases he
            exact (hchain on').trans (if_neg ho)
      | _ => exact hfits.mono (fun _ _ _ he => by cases he) hmem
  · intro i j c e on' hi hj hci hej
    have hold : ∀ i c, (w₁.calls.set id (.sending on view (.tagging b))).get i = some c → c.holdsChain on' = true →
        w.calls.get i = some c := by
      intro i c hi hci
      obtain ⟨-, rfl⟩ | ⟨-, hi⟩ := OrdMap.get_set_some hi
      · cases hci
      · exact hcalls ▸ hi
    exact h.alone i j c e on' (hold i c hi hci) (hold j e hj hej) hci hej

/-! ## Restoring -/

/-- Where the chain object is once `importChains` has put another in its place. -/
def moved (session i : Nat) (on : ChainRef) : ChainRef := if on = .current session then .replaced i else on

theorem keepChain_sending (session i : Nat) (on : ChainRef) (view : Session I) (st : Sealing S) :
    (Call.sending on view st : Call E B).keepChain session i = .sending (moved session i on) view st := rfl

/-- The chain brought back is at its session, and the others are where they moved. -/
theorem chain_importChains {session : Nat} {ch : Chains S I} {g : GroupSession S I}
    (hg : w.engine.heap[session]? = some g) (on : ChainRef) {d : SendChain S} :
    (w.importChains session ch).chain on = some d ↔
      on = .current session ∧ d = ⟨ch.send.1, ch.send.2⟩ ∨
        ∃ on', moved session w.replaced.length on' = on ∧ w.chain on' = some d := by
  have hheap : (w.importChains session ch).engine.heap = w.engine.heap.modify session fun g => g.importChains ch := by
    rw [importChains, hg]
  have hrep : (w.importChains session ch).replaced = w.replaced ++ [g.send_] := by rw [importChains, hg]
  cases on with
  | current s =>
      rw [chain, hheap]
      by_cases hs : s = session
      · subst hs
        rw [List.getElem?_modify_eq, hg]
        constructor
        · intro h
          exact Or.inl ⟨rfl, (Option.some.inj h).symm⟩
        · rintro (⟨-, rfl⟩ | ⟨on', he, -⟩)
          · rfl
          · unfold moved at he
            split at he
            · cases he
            · rename_i hne
              exact absurd he hne
      · rw [List.getElem?_modify_ne _ _ (Ne.symm hs)]
        constructor
        · intro h
          exact Or.inr ⟨.current s, if_neg fun he => hs (ChainRef.current.inj he), h⟩
        · rintro (⟨he, -⟩ | ⟨on', he, h⟩)
          · exact absurd (ChainRef.current.inj he) hs
          · unfold moved at he
            split at he
            · cases he
            · subst he
              exact h
  | replaced i =>
      rw [chain, hrep]
      constructor
      · intro h
        obtain hlt | hge := Nat.lt_or_ge i w.replaced.length
        · rw [List.getElem?_append_left hlt] at h
          exact Or.inr ⟨.replaced i, rfl, h⟩
        · rw [List.getElem?_append_right hge, List.getElem?_singleton] at h
          split at h
          · rename_i hi
            obtain rfl : i = w.replaced.length := by omega
            refine Or.inr ⟨.current session, if_pos rfl, ?_⟩
            rw [chain, hg, Option.map_some, h]
          · cases h
      · rintro (⟨he, -⟩ | ⟨on', he, h⟩)
        · cases he
        · unfold moved at he
          split at he
          · rename_i ho
            cases he
            subst ho
            rw [chain, hg, Option.map_some] at h
            rw [List.getElem?_concat_length, ← h]
          · subst he
            have h : w.replaced[i]? = some d := h
            rw [List.getElem?_append_left (List.getElem?_eq_some_iff.mp h).1]
            exact h

/-- Objects that are there do not move to one place. -/
theorem moved_inj {session : Nat} {on on' : ChainRef} {d d' : SendChain S} (h : w.chain on = some d)
    (h' : w.chain on' = some d') (he : moved session w.replaced.length on = moved session w.replaced.length on') :
    on = on' := by
  have hnot : ∀ {on : ChainRef} {d : SendChain S}, w.chain on = some d → on ≠ .replaced w.replaced.length := by
    rintro _ d hd rfl
    rw [chain, List.getElem?_eq_none (Nat.le_refl _)] at hd
    cases hd
  unfold moved at he
  split at he <;> split at he
  · rename_i h₁ h₂
    rw [h₁, h₂]
  · exact absurd he.symm (hnot h')
  · exact absurd he (hnot h)
  · exact he

theorem Counts.importChains (h : w.Counts Start) {session : Nat} {ch : Chains S I} (hcur : w.Current Start ch.send)
    (hd : w.Drawn ch.send) : (w.importChains session ch).Counts Start := by
  cases hg : w.engine.heap[session]? with
  | none =>
      rw [Layer.importChains, hg]
      exact h
  | some g =>
      have hchain : ∀ on d, (w.importChains session ch).chain on = some d ↔
          on = .current session ∧ d = ⟨ch.send.1, ch.send.2⟩ ∨
            ∃ on', moved session w.replaced.length on' = on ∧ w.chain on' = some d :=
        fun on _ => chain_importChains hg on
      generalize hw : w.importChains session ch = w₁ at hchain ⊢
      obtain ⟨hdrawn, hlog, hcalls, hstore, hrecs, hlen⟩ : w₁.drawn = w.drawn ∧ w₁.log = w.log ∧
          w₁.calls = w.calls.map (fun _ call => call.keepChain session w.replaced.length) ∧ w₁.store = w.store ∧
          w₁.engine.recs = w.engine.recs ∧ w₁.engine.heap.length = w.engine.heap.length := by
        rw [← hw, Layer.importChains, hg]
        exact ⟨rfl, rfl, rfl, rfl, rfl, List.length_modify ..⟩
      have hmem : ∀ k ∈ w.drawn, k ∈ w₁.drawn := fun k hk => hdrawn ▸ hk
      refine h.shift (moved session w.replaced.length) (.current session) hlog (fun k hk => h.start k (hdrawn ▸ hk)) hmem
        ?_ ?_ ?_ ?_ ?_
      · intro on c hc
        obtain ⟨rfl, rfl⟩ | ⟨on', rfl, hold⟩ := (hchain on c).mp hc
        · obtain ⟨seed, hseed, hon⟩ := hd
          exact .new ⟨seed, hmem seed hseed, hon⟩ hcur
        · exact .old on' hold (Nat.le_refl _) fun _ => Iff.rfl
      · intro gid r hr
        rw [hlen]
        exact h.held gid r (hrecs ▸ hr)
      · intro gid saved hs
        exact h.blobs gid saved (hstore ▸ hs)
      · intro i c hi
        rw [hcalls, OrdMap.get_map] at hi
        obtain ⟨c, hc, rfl⟩ := Option.map_eq_some_iff.mp hi
        obtain ⟨hsnaps, hsending⟩ := h.calls i c hc
        cases c with
        | sending on view st =>
            refine ⟨fun s hs => False.elim hs, ?_⟩
            intro on' view' st' he
            rw [keepChain_sending] at he
            cases he
            have hfits := hsending on view st rfl
            obtain ⟨d, hd⟩ := hfits.chain
            exact hfits.mono (((hchain _ d).mpr (Or.inr ⟨on, rfl, hd⟩)).trans hd.symm) hmem
        | _ => exact ⟨fun s hs => (hsnaps s hs).mono hmem, fun _ _ _ he => by cases he⟩
      · intro i j c d on hi hj hci hdj
        have hold : ∀ i c, w₁.calls.get i = some c → c.holdsChain on = true →
            ∃ on' view st, moved session w.replaced.length on' = on ∧ w.calls.get i = some (.sending on' view st) ∧
              (Call.sending on' view st : Call E B).holdsChain on' = true := by
          intro i c hi hci
          rw [hcalls, OrdMap.get_map] at hi
          obtain ⟨c, hc, rfl⟩ := Option.map_eq_some_iff.mp hi
          cases c with
          | sending on' view st =>
              rw [keepChain_sending] at hci
              cases st with
              | tagging b => cases hci
              | _ => exact ⟨on', view, _, of_decide_eq_true hci, hc, decide_eq_true rfl⟩
          | _ => cases hci
        obtain ⟨on₁, view₁, st₁, hon₁, hi, hc₁⟩ := hold i c hi hci
        obtain ⟨on₂, view₂, st₂, hon₂, hj, hc₂⟩ := hold j d hj hdj
        obtain ⟨d₁, hd₁⟩ := ((h.calls i _ hi).sending on₁ view₁ st₁ rfl).chain
        obtain ⟨d₂, hd₂⟩ := ((h.calls j _ hj).sending on₂ view₂ st₂ rfl).chain
        obtain rfl := moved_inj hd₁ hd₂ (hon₁.trans hon₂.symm)
        exact h.alone i j _ _ on₁ hi hj hc₁ hc₂

theorem Counts.keepKid (h : w.Counts Start) (gid : Bytes) (kid : Option B.Kid) : (w.keepKid gid kid).Counts Start := by
  unfold Layer.keepKid
  cases hr : w.engine.recs.get gid with
  | none => exact h
  | some r =>
      refine h.keep (fun on => by cases on <;> rfl) rfl rfl ?_ h.blobs fun _ _ hc => Or.inl hc
      intro gid' r' hr'
      obtain ⟨-, rfl⟩ | ⟨-, hr'⟩ := OrdMap.get_set_some hr'
      · exact h.held gid r hr
      · exact h.held gid' r' hr'

end Layer

/-! ## The manager's steps -/

namespace Engine

variable {e e' : Engine E B}

theorem sends_modify {heap : List (GroupSession S I)} {f : GroupSession S I → GroupSession S I}
    (hf : ∀ g, (f g).send_ = g.send_) (n : Nat) :
    (heap.modify n f).map GroupSession.send_ = heap.map GroupSession.send_ := by
  apply List.ext_getElem?
  intro i
  rw [List.getElem?_map, List.getElem?_map, List.getElem?_modify]
  cases heap[i]? with
  | none => rfl
  | some g =>
      simp only [Option.map_eq_map, Option.map_some]
      split
      · rw [hf]
      · rfl

/-- Sending chains and records are what they were. -/
structure Still (e e' : Engine E B) : Prop where
  sends : e'.heap.map GroupSession.send_ = e.heap.map GroupSession.send_
  recs : e'.recs = e.recs

theorem Still.length (h : Still e e') : e'.heap.length = e.heap.length := by
  have := congrArg List.length h.sends
  rwa [List.length_map, List.length_map] at this

theorem still_give (e : Engine E B) (id session : Nat) (call : Option (SkdCall E B)) :
    Still e (e.give id session call) := by
  cases call <;> exact ⟨rfl, rfl⟩

theorem still_admit_ (e : Engine E B) (id : Nat) (a : Admission E B) (call : Option (SkdCall E B)) :
    Still e (e.admit_ id a call) := by
  unfold admit_
  split
  · exact ⟨rfl, rfl⟩
  · split
    · exact still_give ..
    · exact ⟨rfl, rfl⟩

theorem still_setSenderKey (e : Engine E B) (session : Nat) (call : SkdCall E B) (outcome : SkdOutcome) :
    Still e (e.setSenderKey session call outcome) := by
  unfold setSenderKey
  split
  · exact ⟨rfl, rfl⟩
  · refine ⟨sends_modify (fun g => ?_) _, rfl⟩
    unfold GroupSession.setSenderKey
    split
    · rfl
    · split <;> rfl

theorem still_applySkd (e : Engine E B) (id : Nat) (from_ : I.Pub) (skd : SkdFields E) :
    Still e (e.applySkd id from_ skd) := by
  unfold applySkd
  split
  · exact ⟨rfl, rfl⟩
  · dsimp only
    split
    · exact ⟨rfl, rfl⟩
    · split
      · exact ⟨rfl, rfl⟩
      · split
        · exact ⟨rfl, rfl⟩
        · split
          · exact ⟨rfl, rfl⟩
          · exact still_setSenderKey ..

theorem still_createGroup (e : Engine E B) (id : Nat) (gkPub secret : Bytes) (roster : List (Member I B))
    (gk : Option (AdminGk B)) : Still e (e.act (.createGroup id gkPub secret roster gk)) := by
  rw [act]
  split <;> exact ⟨rfl, rfl⟩

theorem still_rekey (e : Engine E B) (id : Nat) (gid secret : Bytes) (roster : List (Member I B)) :
    Still e (e.act (.rekey id gid secret roster)) := by
  rw [act]
  split
  · exact ⟨rfl, rfl⟩
  · unfold rekey
    split
    · exact ⟨rfl, rfl⟩
    · exact still_admit_ ..

theorem still_receive (e : Engine E B) (session : Nat) (p : I.Pub) (o : ReceiverOpts) (opens : Open S) (t t' : Time)
    (n : Nat) (header ct : Bytes) : Still e (e.act (.receive session p o opens t t' n header ct)) := by
  refine ⟨sends_modify (fun g => ?_) _, rfl⟩
  unfold GroupSession.openAt
  split <;> rfl

/-- A session with a chain of its own was stored. -/
structure Grown (e e' : Engine E B) (random : S.Key) : Prop where
  sends : e'.heap.map GroupSession.send_ = e.heap.map GroupSession.send_ ++ [newSendChain random]
  recs : ∀ gid r, e'.recs.get gid = some r → e.recs.get gid = some r ∨ r.session = e.heap.length

theorem Grown.length {random : S.Key} (h : Grown e e' random) : e'.heap.length = e.heap.length + 1 := by
  have := congrArg List.length h.sends
  rwa [List.length_map, List.length_append, List.length_map] at this

theorem created_still_or_grown (e : Engine E B) (id : Nat) (a : Admission E B) (cur : Option (Held E B))
    (call : Option (SkdCall E B)) (random : S.Key) :
    Still e (e.created id a cur call random) ∨ Grown e (e.created id a cur call random) random := by
  unfold created
  cases hg : GroupSession.create E e.me a.gid a.epoch (a.roster.map Member.pub) random with
  | none => cases call <;> exact Or.inl ⟨rfl, rfl⟩
  | some g =>
      have hsend : g.send_ = newSendChain random := by
        unfold GroupSession.create at hg
        split at hg
        · cases hg
          rfl
        · cases hg
      right
      dsimp only
      constructor
      · rw [(still_give ..).sends, List.map_append, List.map_singleton, hsend]
      · intro gid r hr
        rw [(still_give ..).recs] at hr
        obtain ⟨-, rfl⟩ | ⟨-, hr⟩ := OrdMap.get_set_some hr
        · exact Or.inr rfl
        · exact Or.inl hr

/-- A chain is drawn only where a session is created. -/
theorem resume_still_or_grown (e : Engine E B) (id : Nat) (random : S.Key) :
    Still e (e.resume id random) ∨
      (∃ a cur call, e.tasks.get id = some (.creating a cur call)) ∧ Grown e (e.resume id random) random := by
  unfold resume
  cases ht : e.tasks.get id with
  | none => exact Or.inl ⟨rfl, rfl⟩
  | some t =>
      cases t with
      | attesting call =>
          left
          dsimp only
          unfold attested
          split
          · exact ⟨rfl, rfl⟩
          · exact still_admit_ ..
      | founding a => exact Or.inl (still_admit_ ..)
      | creating a cur call =>
          exact (e.created_still_or_grown id a cur call random).imp_right fun h => ⟨⟨a, cur, call, rfl⟩, h⟩
      | admitted session call =>
          have h := (e.done id).still_setSenderKey session call (if call.cur.isSome then .rekeyed else .joined)
          exact Or.inl ⟨h.sends, h.recs⟩

end Engine

namespace Layer

variable {Start : S.Key → Prop} {w w' : Layer E B} {id : Nat} {c : Call E B} {K : RosterKeys E B}

theorem Counts.still (h : w.Counts Start) {e' : Engine E B} (he : w.engine.Still e') :
    ({ w with engine := e' } : Layer E B).Counts Start := by
  refine h.keep ?_ rfl rfl ?_ h.blobs fun _ _ hc => Or.inl hc
  · intro on
    cases on with
    | current s =>
        rw [chain_current, chain_current]
        exact congrArg (·[s]?) he.sends
    | replaced i => rfl
  · intro gid r hr
    have hr : w.engine.recs.get gid = some r := he.recs ▸ hr
    exact (h.held gid r hr).trans_eq he.length.symm

/-- A chain drawn afresh is current. -/
theorem Counts.current_new (h : w.Counts Start) (hideal : S.chain.Ideal Start) {random : S.Key} (hs : Start random)
    (hnew : random ∉ w.drawn) : w.Current Start (random, 0) := by
  intro seed hseed hon
  obtain ⟨rfl, -⟩ := hideal.chainAt_eq (m := 0) (n := 0) hs hseed hon
  constructor
  · intro on d hd hon'
    obtain ⟨seed, hseed', hon''⟩ := h.chains on d hd
    obtain ⟨rfl, -⟩ := hideal.chainAt_eq (h.start seed hseed') hs (hon''.symm.trans hon')
    exact hnew hseed'
  · rintro frame f hf ⟨k, hk⟩
    obtain ⟨seed, hseed', hkey⟩ := h.made frame f hf
    obtain ⟨rfl, -⟩ := hideal.keyAt_eq (h.start seed hseed') hs (hkey.symm.trans hk)
    exact absurd hseed' hnew

/-- The chains in memory once a session is stored. -/
theorem chain_grown {random : S.Key} {drawn : List S.Key} {e' : Engine E B} (he : w.engine.Grown e' random)
    (on : ChainRef) (c : SendChain S) :
    ({ w with engine := e', drawn } : Layer E B).chain on = some c ↔
      w.chain on = some c ∨ on = .current w.engine.heap.length ∧ c = newSendChain random := by
  cases on with
  | current s =>
      rw [chain_current]
      show (e'.heap.map GroupSession.send_)[s]? = some c ↔ _
      rw [he.sends, List.getElem?_append, List.length_map]
      split
      · rename_i hlt
        rw [← chain_current]
        constructor
        · exact Or.inl
        · rintro (hc | ⟨ho, -⟩)
          · exact hc
          · rw [ChainRef.current.inj ho] at hlt
            exact absurd hlt (Nat.lt_irrefl _)
      · rename_i hge
        have hnone : w.chain (.current s) = none := by
          rw [chain_current, List.getElem?_eq_none]
          rw [List.length_map]
          exact Nat.not_lt.mp hge
        rw [hnone, List.getElem?_singleton]
        constructor
        · intro hc
          split at hc
          · rename_i hz
            cases hc
            exact Or.inr ⟨congrArg _ (by omega), rfl⟩
          · cases hc
        · rintro (hc | ⟨ho, rfl⟩)
          · cases hc
          · rw [ChainRef.current.inj ho, Nat.sub_self, if_pos rfl]
  | replaced i =>
      constructor
      · exact Or.inl
      · rintro (hc | ⟨ho, -⟩)
        · exact hc
        · cases ho

theorem Counts.grown (h : w.Counts Start) (hideal : S.chain.Ideal Start) {random : S.Key} (hs : Start random)
    (hnew : random ∉ w.drawn) {e' : Engine E B} (he : w.engine.Grown e' random) :
    ({ w with engine := e', drawn := random :: w.drawn } : Layer E B).Counts Start := by
  have hmem : ∀ k ∈ w.drawn, k ∈ random :: w.drawn := fun _ hk => List.mem_cons_of_mem _ hk
  refine h.shift (fun on => on) (.current w.engine.heap.length) rfl ?_ hmem ?_ ?_ h.blobs ?_ h.alone
  · intro k hk
    obtain rfl | hk := List.mem_cons.mp hk
    · exact hs
    · exact h.start k hk
  · intro on c hc
    obtain hc | ⟨rfl, rfl⟩ := (chain_grown he on c).mp hc
    · exact .old on hc (Nat.le_refl _) fun _ => Iff.rfl
    · exact .new ⟨random, List.mem_cons_self .., rfl⟩ (h.current_new hideal hs hnew)
  · intro gid r hr
    show r.session < e'.heap.length
    rw [he.length]
    obtain hr | hr := he.recs gid r hr
    · exact Nat.lt_succ_of_lt (h.held gid r hr)
    · rw [hr]
      exact Nat.lt_succ_self _
  · intro i c hc
    refine (h.calls i c hc).mono ?_ hmem
    intro on view st hsend
    obtain ⟨d, hd⟩ := ((h.calls i c hc).sending on view st hsend).chain
    exact ((chain_grown he on d).mpr (Or.inl hd)).trans hd.symm

theorem Counts.engineOn (h : w.Counts Start) (hideal : S.chain.Ideal Start) {random : S.Key}
    (hok : ∀ a cur call, w.engine.tasks.get id = some (.creating a cur call) → Start random ∧ random ∉ w.drawn) :
    (w.engineOn id random).Counts Start := by
  have hcalm : ∀ (drawn : List S.Key) {gid saved session rest s},
      w.calls.get id = some (.restoring gid saved session rest) → (∀ k ∈ w.drawn, k ∈ drawn) →
        ({ w with engine := w.engine.resume id random, drawn } : Layer E B).Calm (.restoring gid saved s rest) := by
    intro drawn gid saved session rest s hc hmem
    exact ⟨fun s hs => ((h.calls id _ hc).snaps s hs).mono hmem, fun _ _ _ he => by cases he⟩
  obtain hstill | ⟨⟨a, cur, call, ht⟩, hgrown⟩ := w.engine.resume_still_or_grown id random
  · have hstored : w.engine.stored (w.engine.resume id random) = none := if_pos hstill.length
    have h' := h.still hstill
    unfold Layer.engineOn
    dsimp only
    rw [hstored]
    dsimp only [Option.elim_none, Option.elim_some]
    split
    · contradiction
    · exact h'.putQuiet rfl
    · exact h'.done
    · exact h'
  · obtain ⟨hs, hnew⟩ := hok a cur call ht
    have hstored : w.engine.stored (w.engine.resume id random) = some w.engine.heap.length :=
      if_neg (by rw [hgrown.length]; exact Nat.succ_ne_self _)
    have h' := h.grown hideal hs hnew hgrown
    unfold Layer.engineOn
    dsimp only
    rw [hstored]
    dsimp only [Option.elim_none, Option.elim_some]
    split
    · rename_i hc _
      exact h'.put (hcalm _ hc fun k hk => List.mem_cons_of_mem _ hk)
    · contradiction
    · contradiction
    · exact h'

/-! ## Runs -/

theorem Counts.sendOn (h : w.Counts Start) (hideal : S.chain.Ideal Start) {on : ChainRef} {view : Session I}
    {st : Sealing S} (hc : w.calls.get id = some (.sending on view st)) : (w.sendOn id on view st).Counts Start := by
  have hfits := (h.calls id _ hc).sending on view st rfl
  -- a call that has yet to move its chain has it alone
  have halone : (Call.sending on view st : Call E B).holdsChain on = true →
      ∀ j d, w.calls.get j = some d → d.holdsChain on = true → j = id :=
    fun hhold j d hj hdj => h.alone j id d _ on hj hc hdj hhold
  cases st with
  | keyed header pt key =>
      obtain ⟨c, seed, hon, rfl, hctr⟩ := hfits
      rw [Layer.sendOn, hon.chain]
      dsimp only
      have hsealed := h.sealed hideal hon (b := aeadBox (S.chain.keyAt seed c.n) c.n header pt) rfl hctr
      refine hsealed.putSend ?_ (halone (decide_eq_true rfl))
      exact ⟨c, seed, ⟨hon.chain, hon.drawn, hon.onChain⟩, rfl, hctr⟩
  | encrypting b =>
      obtain ⟨c, seed, hon, hkey, hctr⟩ := hfits
      rw [Layer.sendOn, hon.chain]
      exact h.putSend ⟨c, seed, hon, hkey, hctr, rfl⟩ (halone (decide_eq_true rfl))
  | stepping b next =>
      obtain ⟨c, seed, hon, -⟩ := hfits
      rw [Layer.sendOn, hon.chain]
      exact h.advance hideal hc hon.chain
  | tagging b =>
      obtain ⟨c, seed, hon, hkey, hlt⟩ := hfits
      exact (h.published hideal hon _ hkey hlt).putQuiet rfl

/-- A send starts, and no other has the chain. -/
theorem Counts.send (h : w.Counts Start) {gid pt : Bytes} (hok : w.Counting Start (.send id gid pt)) :
    (w.send id gid pt).Counts Start := by
  unfold Layer.send
  split
  · exact h
  · rename_i s hs
    obtain ⟨hfree, hfits⟩ := hok s hs
    split
    · exact h
    · rename_i g hg
      have hchain : w.chain (.current s) = some g.send_ := by rw [chain, hg, Option.map_some]
      obtain ⟨seed, hseed, hon⟩ := h.chains _ _ hchain
      have hctr : (decodeHeader (encodeHeader (g.view.headerAt g.send_.n))).ctr = g.send_.n := by
        rw [Group.decodeHeader_encodeHeader (g.view.headerAt_fits _)]
        exact Nat.mod_eq_of_lt (hfits _ hchain)
      have hkey : S.chain.messageKey g.send_.key = S.chain.keyAt seed g.send_.n := congrArg S.chain.messageKey hon
      refine h.putSend ⟨g.send_, seed, ⟨hchain, hseed, hon⟩, hkey, hctr⟩ ?_
      intro j d hj hdj
      rw [hfree (j, d) (OrdMap.get_eq_some.mp hj)] at hdj
      cases hdj

theorem keepKid_chain (w : Layer E B) (gid : Bytes) (kid : Option B.Kid) (on : ChainRef) :
    (w.keepKid gid kid).chain on = w.chain on := by
  unfold Layer.keepKid
  split <;> cases on <;> rfl

theorem keepKid_log (w : Layer E B) (gid : Bytes) (kid : Option B.Kid) : (w.keepKid gid kid).log = w.log := by
  unfold Layer.keepKid
  split <;> rfl

theorem keepKid_drawn (w : Layer E B) (gid : Bytes) (kid : Option B.Kid) : (w.keepKid gid kid).drawn = w.drawn := by
  unfold Layer.keepKid
  split <;> rfl

theorem Counts.restored (h : w.Counts Start) {gid : Bytes} {saved : Saved E B} {session : Nat} {rest : List Bytes}
    (hsnap : w.SnapFits saved.snap)
    (hcur : ∀ c, GroupManager.chainsOf saved.snap = some c → w.Current Start c.send) :
    (w.restored id gid saved session rest).Counts Start := by
  have hkid := h.keepKid gid saved.snap.memberGkKid
  unfold Layer.restored
  dsimp only
  cases hc : GroupManager.chainsOf saved.snap with
  | none => exact hkid.putQuiet rfl
  | some c =>
      have hcur' : (w.keepKid gid saved.snap.memberGkKid).Current Start c.send := by
        intro seed hs hon
        obtain ⟨hfree, hpast⟩ := hcur c hc seed hs hon
        refine ⟨fun on d hd => hfree on d (keepKid_chain w gid _ on ▸ hd), fun frame f hf => hpast frame f ?_⟩
        exact keepKid_log w gid _ ▸ hf
      have hdrawn : (w.keepKid gid saved.snap.memberGkKid).Drawn c.send := by
        rw [Drawn, keepKid_drawn]
        exact hsnap c hc
      exact ((hkid.importChains hcur' hdrawn).setInfo gid _).open_ gid _

theorem Counts.admitSaved (h : w.Counts Start) {saved : Saved E B} (hsnap : w.SnapFits saved.snap) (rest : List Bytes) :
    (w.admitSaved id saved rest).Counts Start := by
  unfold Layer.admitSaved
  split
  · exact h.putQuiet rfl
  · refine (h.still (w.engine.still_admit_ ..)).put ⟨?_, fun _ _ _ he => by cases he⟩
    rintro s rfl
    exact hsnap

theorem Counts.goOn (T : Texts E) (h : w.Counts Start) (hideal : S.chain.Ideal Start) (reached : Bool)
    (hc : w.calls.get id = some c)
    (hok : ∀ gid saved session rest, c = .restoring gid saved (some session) rest →
      ∀ ch, GroupManager.chainsOf saved.snap = some ch → w.Current Start ch.send) :
    (w.goOn K id reached c).Counts Start := by
  have hsnaps := (h.calls id c hc).snaps
  cases c with
  | creating gid name roster => exact (h.setInfo gid _).open_ gid _
  | rekeying gid roster =>
      rw [Layer.goOn]
      split
      · exact h.done
      · exact (h.setInfo gid _).open_ gid _
  | opening gid session next =>
      have henter : (w.enter gid session).Counts Start := by
        unfold Layer.enter
        split
        · exact h
        · exact h.setInfo gid _
      exact henter.leads (fun s hs => henter.snapshot T hs) (leads_opened K _ id gid next)
  | handing gid m skd todo save =>
      have hgive : (w.give gid m skd reached).Counts Start := by
        unfold Layer.give
        split
        · exact h.keep (fun on => by cases on <;> rfl) rfl rfl h.held h.blobs fun _ _ hd => Or.inl hd
        · exact h
      exact hgive.leads (fun s hs => hgive.snapshot T hs) (leads_hand K _ id gid save todo)
  | sealing gid saved rest =>
      rw [Layer.goOn]
      have hput : ({ w with store := { w.store with blobs := w.store.blobs.set gid saved } } : Layer E B).Counts
          Start := by
        refine h.keep (fun on => by cases on <;> rfl) rfl rfl h.held ?_ fun _ _ hd => Or.inl hd
        intro gid' saved' hs
        obtain ⟨-, rfl⟩ | ⟨-, hs⟩ := OrdMap.get_set_some hs
        · exact hsnaps _ (Or.inl rfl)
        · exact h.blobs gid' saved' hs
      exact hput.leads (K := K) (fun s hs => hsnaps s (Or.inr hs)) (leads_seal fun s (hs : s ∈ rest) => hs)
  | listing stored => exact h.putQuiet rfl
  | indexing groups =>
      refine Counts.done (h.keep (fun on => by cases on <;> rfl) rfl rfl h.held ?_ fun _ _ hd => Or.inl hd)
      exact h.blobs
  | reading gids =>
      cases gids with
      | nil => exact h.done
      | cons gid rest =>
          rw [Layer.goOn]
          split
          · exact h.putQuiet rfl
          · rename_i saved hs
            refine h.put ⟨?_, fun _ _ _ he => by cases he⟩
            rintro s rfl
            exact h.blobs gid saved hs
  | unsealing saved rest => exact h.admitSaved (hsnaps _ rfl) rest
  | restoring gid saved session rest =>
      cases session with
      | none => exact h.putQuiet rfl
      | some session => exact h.restored (hsnaps _ rfl) (hok gid saved session rest rfl)
  | sending on view st => exact h.sendOn hideal hc
  | publishing => exact h.persist T

theorem Counts.stop (h : w.Counts Start) :
    ({ w with engine := .start w.me, infos := .empty, calls := .empty, replaced := [] } : Layer E B).Counts Start := by
  constructor
  · exact h.start
  · intro on c hc
    cases on <;> cases hc
  · intro on on' c c' seed hc
    cases on <;> cases hc
  · intro gid r hr
    cases hr
  · exact h.blobs
  · intro i c hc
    cases hc
  · intro i j c d on hc
    cases hc
  · exact h.made
  · intro frame b hb on c seed hc
    cases on <;> cases hc
  · exact h.noReuse

theorem Counts.setMembers (h : w.Counts Start) (gid secret : Bytes) (members : List I.Pub) :
    (w.setMembers id gid secret members).Counts Start := by
  unfold Layer.setMembers
  split
  · exact h
  · split
    · exact h
    · exact (h.still (w.engine.still_rekey ..)).putQuiet rfl

theorem Counts.onInvite (T : Texts E) (h : w.Counts Start) (from_ : I.Pub) (skd : SkdFields E) (name : Option Units) :
    (w.onInvite id from_ skd name).Counts Start := by
  unfold Layer.onInvite
  split
  · exact h
  · dsimp only
    split
    · exact h
    · split
      · exact (h.setInfo _ _).open_ ..
      · split
        · exact h
        · split
          · exact (h.setInfo _ _).open_ ..
          · exact (h.setInfo _ _).persist T

theorem Counts.act (T : Texts E) (h : w.Counts Start) (hideal : S.chain.Ideal Start) (a : LayerAct E B)
    (hok : w.Counting Start a) : (w.act K a).Counts Start := by
  have hidle : ∀ {i : Nat} {w' : Layer E B}, w'.Counts Start → (if w.busy i then w else w').Counts Start := by
    intro i w' h'
    cases w.busy i with
    | true => exact h
    | false => exact h'
  cases a with
  | create id d secret name memberPubs =>
      refine hidle ?_
      unfold Layer.create
      dsimp only
      split
      · exact h
      · exact (h.still (w.engine.still_createGroup ..)).putQuiet rfl
  | setMembers id gid secret members => exact hidle (h.setMembers gid secret members)
  | addMember id gid secret pub =>
      refine hidle ?_
      unfold Layer.addMember
      split
      · exact h
      · split
        · exact h
        · exact h.setMembers gid secret _
  | removeMember id gid secret pub =>
      refine hidle ?_
      unfold Layer.removeMember
      split
      · exact h
      · split
        · exact h
        · split
          · exact h
          · exact h.setMembers gid secret _
  | distribute id gid only => exact hidle (h.leads (fun s hs => h.snapshot T hs) (leads_hand K w id gid false _))
  | persist id => exact hidle (h.persist T)
  | restore id =>
      refine hidle ?_
      split
      · exact h.putQuiet rfl
      · exact h
  | send id gid pt => exact hidle (h.send hok)
  | receive session p o opens t t' n header ct => exact h.still (w.engine.still_receive ..)
  | applySkd id from_ skd =>
      refine hidle (h.still ?_)
      rw [Engine.act]
      split
      · exact ⟨rfl, rfl⟩
      · exact w.engine.still_applySkd ..
  | onInvite id from_ skd name => exact hidle (h.onInvite T from_ skd name)
  | resume id random reached =>
      rw [Layer.act, Layer.resume]
      cases ht : w.engine.tasks.get id with
      | some t =>
          refine h.engineOn hideal ?_
          intro a cur call hc
          rw [Counting, hc] at hok
          exact hok
      | none =>
          cases hc : w.calls.get id with
          | none => exact h
          | some c =>
              refine h.goOn T hideal reached hc ?_
              rintro gid saved session rest rfl
              rw [Counting, ht, hc] at hok
              exact hok
  | stop => exact h.stop

/-- No counter of a published frame seals again, over any number of restarts, in every run whose sends do not overlap and
whose restored chains are past every frame published on them. -/
theorem no_reuse (T : Texts E) (hideal : S.chain.Ideal Start) {me : I.Pub} {base : Bool}
    (h : Reach (act K) (Counting Start) (start me base) w) : NoReuse Start w.log :=
  (h.invariant (counts_start me base) fun _ a h hok => h.act T hideal a hok).noReuse

end Layer

/-! ## A counter that seals twice -/

namespace Symbolic

open EncedoChat.Group.Symbolic (Key Start suite)

instance : DecidableEq suite.Key := inferInstanceAs (DecidableEq Key)

/-- The secret a key was derived from. -/
def root : suite.Key → suite.Key
  | Key.message ck => root ck
  | Key.next ck => root ck
  | Key.secret n => Key.secret n

theorem start_root (k : suite.Key) : Start (root k) := by
  induction k with
  | secret n => exact ⟨n, rfl⟩
  | message ck ih => exact ih
  | next ck ih => exact ih

theorem root_start {k : suite.Key} (h : Start k) : root k = k := by
  obtain ⟨n, rfl⟩ := h
  rfl

theorem root_chainAt (k : suite.Key) (n : Nat) : root (suite.chain.chainAt k n) = root k := by
  induction n with
  | zero => rfl
  | succ n ih => exact (congrArg root (KeyChain.chainAt_succ suite.chain k n)).trans ih

theorem root_onChain {seed key : suite.Key} {n : Nat} (hs : Start seed) (h : OnChain seed key n) : root key = seed :=
  (congrArg root h).trans ((root_chainAt seed n).trans (root_start hs))

theorem root_ofChain {seed : suite.Key} {b : Box suite.Key suite.Nonce} (hs : Start seed) (h : OfChain seed b) :
    root b.key = seed := by
  obtain ⟨k, hk⟩ := h
  exact (congrArg root hk).trans ((root_chainAt seed k).trans (root_start hs))

/-- The frame was not published, or is of another chain, or the chain is past it. -/
def behind (c : suite.Key × Nat) : Event suite → Bool
  | .published _ b => decide (root b.key = root c.1 → ctrOf b < c.2)
  | .sealed _ => true

/-- Enough for `Current`. -/
def past (w : Layer env scalars) (c : suite.Key × Nat) : Bool :=
  w.replaced.isEmpty && w.engine.heap.all (fun g => root g.send_.key ≠ root c.1) && w.log.all (behind c)

/-- Enough for `Counting`. -/
def settled (w : Layer env scalars) : LayerAct env scalars → Bool
  | .send .. => w.calls.entries.isEmpty && w.engine.heap.all fun g => g.send_.n < 2 ^ 32
  | .resume id random _ =>
    match w.engine.tasks.get id, w.calls.get id with
    | some (.creating ..), _ => decide (root random = random) && w.drawn.all fun k => decide (k ≠ random)
    | none, some (.restoring _ saved (some _) _) => (GroupManager.chainsOf saved.snap).all fun c => past w c.send
    | _, _ => true
  | _ => true

theorem current_of_past {w : Layer env scalars} {c : suite.Key × Nat} (h : past w c = true) : w.Current Start c := by
  simp only [past, Bool.and_eq_true, List.isEmpty_iff, List.all_eq_true, decide_eq_true_eq] at h
  obtain ⟨⟨hrep, hheap⟩, hlog⟩ := h
  intro seed hs hc
  have hroot := root_onChain hs hc
  constructor
  · intro on d hd hon
    cases on with
    | current s =>
        obtain ⟨g, hg, rfl⟩ := Option.map_eq_some_iff.mp hd
        exact hheap g (List.mem_of_getElem? hg) ((root_onChain hs hon).trans hroot.symm)
    | replaced i =>
        rw [Layer.chain, hrep] at hd
        cases hd
  · intro frame f hf hof
    have hb := hlog _ hf
    exact of_decide_eq_true hb ((root_ofChain hs hof).trans hroot.symm)

theorem counting_of_settled {w : Layer env scalars} {a : LayerAct env scalars} (h : settled w a = true) :
    w.Counting Start a := by
  cases a with
  | send id gid pt =>
      simp only [settled, Bool.and_eq_true, List.isEmpty_iff, List.all_eq_true, decide_eq_true_eq] at h
      intro s _
      refine ⟨?_, ?_⟩
      · rw [h.1]
        intro e he
        cases he
      · intro c hc
        obtain ⟨g, hg, rfl⟩ := Option.map_eq_some_iff.mp hc
        exact h.2 g (List.mem_of_getElem? hg)
  | resume id random reached =>
      rw [settled] at h
      unfold Layer.Counting
      dsimp only
      cases ht : w.engine.tasks.get id with
      | some t =>
          rw [ht] at h
          cases t with
          | creating a cur call =>
              rw [Bool.and_eq_true, List.all_eq_true] at h
              obtain ⟨hs, hnew⟩ := h
              refine ⟨of_decide_eq_true hs ▸ start_root random, fun hmem => ?_⟩
              exact of_decide_eq_true (hnew random hmem) rfl
          | _ => trivial
      | none =>
          cases hc : w.calls.get id with
          | none => trivial
          | some call =>
              cases call with
              | restoring gid saved session rest =>
                  cases session with
                  | none => trivial
                  | some session =>
                      intro c hch
                      rw [ht, hc] at h
                      dsimp only at h
                      rw [hch, Option.all_some] at h
                      exact current_of_past h
              | _ => trivial
  | _ => trivial

/-- The process stops before the state is saved that the last send moved. -/
def early : List (LayerAct env scalars) :=
  founded ++ .send 0 group [1] :: goes 0 5 1 ++ [.stop, .restore 0] ++ goes 0 6 2 ++ .send 1 group [2] :: goes 1 1 3

set_option maxRecDepth 4000 in
/-- The counter of a published frame seals another text after a restart. -/
theorem sealed_again : ∃ (w : Layer env scalars) (b f : Box suite.Key suite.Nonce) (frame : Bytes)
    (log : List (Event suite)),
    Reach (Layer.act rosterKeys) (fun _ _ => True) (Layer.start (1 : UInt8) true) w ∧
      w.log = .sealed b :: log ∧ .published frame f ∈ log ∧ Reuses Start f b ∧ b.pt ≠ f.pt := by
  have hadm : Admits (Layer.act rosterKeys) (fun _ _ => True) (Layer.start (1 : UInt8) true) early :=
    Admits.of_forall (fun _ _ => trivial) _ _
  refine ⟨play early, _, _, _, _, hadm.reach .start, rfl, List.mem_cons_self ..,
    ⟨?_, .secret 0, ⟨0, rfl⟩, ⟨0, ?_⟩, 0, ?_⟩, ?_⟩
  · decide
  · decide
  · decide
  · decide

/-- The process stops after it. -/
def late : List (LayerAct env scalars) :=
  founded ++ .send 0 group [1] :: goes 0 8 1 ++ [.stop, .restore 0] ++ goes 0 6 2 ++ .send 1 group [2] :: goes 1 5 3

set_option maxRecDepth 4000 in
theorem sealed_once : Layer.NoReuse Start (play late).log ∧ (play late).log.length = 4 := by
  have hadm : Admits (Layer.act rosterKeys) (fun w a => settled w a = true) (Layer.start (1 : UInt8) true) late := by
    decide
  refine ⟨Layer.no_reuse texts Group.Symbolic.ideal ((hadm.reach .start).mono fun w a h => counting_of_settled h), ?_⟩
  decide

end Symbolic

end EncedoChat.Groups
