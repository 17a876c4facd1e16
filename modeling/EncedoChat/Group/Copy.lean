import EncedoChat.Group.Delivery

/-!
# Copies of a sender's key

What `setSenderKey` does to the frames that the session could open: an older copy leaves its receiver alone, a
newer one takes its place, and the stash and the counters in between go with the old one.
-/

namespace EncedoChat.Group

open SenderReceiver (Tracks OnChain Openable)

variable {S : Suite} {I : Identities} {o : ReceiverOpts} {ck : S.Key} {log : Log S}

/-- The seals of one chain in the order of their counters. -/
def SealedOn (ck : S.Key) (log : Log S) : Prop :=
  ∀ k b, log[k]? = some b → b.key = S.chain.keyAt ck k ∧ b.nonce = S.aeadNonce b.key (Bytes.u32be k)

theorem SealedOn.nodup {Start : S.Key → Prop} (h : SealedOn ck log) (hS : S.chain.Ideal Start) (hck : Start ck) :
    (log.map fun b => (b.key, b.nonce)).Nodup := by
  have hkeys : (log.map Box.key).Nodup := by
    refine hS.nodup_keys hck (n := 0) fun i k hk => ?_
    rw [List.getElem?_map] at hk
    obtain ⟨b, hb, rfl⟩ := Option.map_eq_some_iff.mp hk
    rw [(h i b hb).1, Nat.zero_add]
  apply List.Nodup.of_map Prod.fst
  rwa [List.map_map]

namespace Lane

variable {l : Lane S I} {id ctr : Nat} {t : Time} {r : SenderReceiver S}

/-- The receivers of the lane, and the openings under way, are on the sender's chain. -/
structure Standing (ck : S.Key) (l : Lane S I) : Prop where
  valid : ∀ i, l.cur = some i → ∃ r, l.heap[i]? = some r
  tracks : ∀ (i : Nat) (r : SenderReceiver S), l.heap[i]? = some r → r.Tracks ck
  openings : ∀ id i c k, l.Opening id i c k → OnChain ck k c

/-- The copies that arrive are of the chain that starts at `ck`. -/
def Honest (ck : S.Key) : LaneAct S → Prop
  | .setSenderKey _ chainKey ctr _ => chainKey = S.chain.chainAt ck ctr
  | _ => True

instance (ck : S.Key) (a : LaneAct S) : Decidable (Honest ck a) :=
  match a with
  | .setSenderKey _ _ _ _ => inferInstanceAs (Decidable (_ = _))
  | .receive _ _ => isTrue trivial
  | .resume _ _ _ => isTrue trivial

/-- Frame `b`, at counter `k`, opens now. -/
def OpensNow (o : ReceiverOpts) (log : Log S) (l : Lane S I) (t : Time) (k : Nat) (b : Box S.Key S.Nonce) : Prop :=
  ∃ r, l.live = some r ∧ (r.openAt o (Box.openIn log) t t k b.aad b.ct).2 = .ok b.pt

/-- What was openable and has not been opened still is, and the receiver is not set back. -/
structure Keeps (o : ReceiverOpts) (log : Log S) (t : Time) (l l' : Lane S I) : Prop where
  opens : ∀ k b, log[k]? = some b → ¬l.Done k → l.OpensNow o log t k b → l'.OpensNow o log t k b
  forward : ∀ r, l.live = some r → ∃ r', l'.live = some r' ∧ r.n ≤ r'.n

/-- Nothing is lost with the receiver that a copy at `ctr` replaces: what it had set aside and what lies between
the two has been opened. -/
def Spares (o : ReceiverOpts) (l : Lane S I) (ctr : Nat) (t : Time) : Prop :=
  l.member = l.session.me ∨ ∀ r, l.live = some r → r.n ≤ ctr →
    (∀ k, r.n ≤ k → k < ctr → k - r.n ≤ o.maxSkip → l.Done k) ∧
    ∀ k s, (r.prune o t).skipped.get k = some s → l.Done k

theorem openAt_iff {k : Nat} {b : Box S.Key S.Nonce} (hr : r.Tracks ck) (hlog : SealedOn ck log)
    (hnd : (log.map fun b => (b.key, b.nonce)).Nodup) (hb : log[k]? = some b) :
    (r.openAt o (Box.openIn log) t t k b.aad b.ct).2 = .ok b.pt ↔ r.Openable o t k := by
  constructor
  · intro h
    rw [SenderReceiver.openable_iff]
    cases hs : (r.prune o t).start o k with
    | ok c => exact ⟨c, rfl⟩
    | error e =>
        rw [SenderReceiver.openAt, hs] at h
        cases h
  · intro h
    obtain ⟨hkey, hnonce⟩ := hlog k b hb
    apply SenderReceiver.openAt_ok hr h
    rw [← hkey, ← hnonce]
    exact Box.openIn_sealed hnd (List.mem_of_getElem? hb)

theorem release_same (l : Lane S I) (id : Nat) (use : Option Nat) (t : Time) : Same l (l.release id use t) := by
  unfold release
  cases l.heldSince t <;> exact ⟨rfl, rfl, rfl, rfl, rfl⟩

/-- The receiver that the session has after a copy has arrived. -/
theorem live_setSenderKey {key : S.Key} (hvalid : ∀ i, l.cur = some i → ∃ r, l.heap[i]? = some r)
    (hid : l.tasks.get id = none) (hme : l.member ≠ l.session.me) :
    (l.setSenderKey id key ctr t).live =
      if (l.live.any fun r => decide (ctr < r.n)) = true then l.live else some (.make key ctr) := by
  have hgrow : ∀ i, l.cur = some i → (l.heap ++ [SenderReceiver.make key ctr])[i]? = l.heap[i]? := by
    intro i hi
    obtain ⟨r, hr⟩ := hvalid i hi
    rw [List.getElem?_append_left (List.getElem?_eq_some_iff.mp hr).1]
  have hsame : live { l with heap := l.heap ++ [SenderReceiver.make key ctr] } = l.live := by
    unfold live
    cases hc : l.cur with
    | none => rfl
    | some i => exact hgrow i hc
  have hnew : live { l with heap := l.heap ++ [SenderReceiver.make key ctr], cur := some l.heap.length } =
      some (.make key ctr) := List.getElem?_concat_length
  unfold setSenderKey
  rw [hid, if_neg (by simp), if_neg hme]
  dsimp only
  split
  · split
    · rw [(release_same ..).live, hsame]
    · rfl
  · split
    · rw [(release_same ..).live, hnew]
    · exact hnew

/-- Exactly when an honest copy loses nothing. -/
theorem setSenderKey_keeps_iff {Start : S.Key → Prop} (hS : S.chain.Ideal Start) (hck : Start ck)
    (hlog : SealedOn ck log) (hl : l.Standing ck) (hid : l.tasks.get id = none) (hctr : ctr ≤ log.length) :
    Keeps o log t l (l.setSenderKey id (S.chain.chainAt ck ctr) ctr t) ↔ Spares o l ctr t := by
  have hnd := hlog.nodup hS hck
  have hlive : ∀ r, l.live = some r → r.Tracks ck := by
    intro r hr
    obtain ⟨i, -, hi⟩ := live_eq_some.mp hr
    exact hl.tracks i r hi
  by_cases hme : l.member = l.session.me
  · -- our own key is not taken
    have hsame : l.setSenderKey id (S.chain.chainAt ck ctr) ctr t = l := by
      unfold setSenderKey
      rw [hid, if_neg (by simp), if_pos hme]
    rw [hsame]
    exact ⟨fun _ => Or.inl hme, fun _ => ⟨fun k b _ _ h => h, fun r hr => ⟨r, hr, Nat.le_refl _⟩⟩⟩
  have hnew : (l.setSenderKey id (S.chain.chainAt ck ctr) ctr t).live = _ := live_setSenderKey hl.valid hid hme
  by_cases hold : (l.live.any fun r => decide (ctr < r.n)) = true
  · rw [if_pos hold] at hnew
    obtain ⟨r, hr, hlt⟩ := (Option.any_eq_true _ _).mp hold
    have hlt := of_decide_eq_true hlt
    constructor
    · intro _
      refine Or.inr ?_
      intro r' hr' hge
      rw [hr] at hr'
      cases hr'
      omega
    · intro _
      refine ⟨?_, ?_⟩
      · intro k b _ _ ho
        rw [OpensNow, hnew]
        exact ho
      · intro r' hr'
        exact ⟨r', hnew.trans hr', Nat.le_refl _⟩
  · rw [if_neg hold] at hnew
    have hge : ∀ r, l.live = some r → r.n ≤ ctr := by
      intro r hr
      by_contra hlt
      exact hold ((Option.any_eq_true _ _).mpr ⟨r, hr, decide_eq_true (Nat.not_le.mp hlt)⟩)
    have hmake : (SenderReceiver.make (S.chain.chainAt ck ctr) ctr).Tracks ck := Tracks.make ctr
    have hopen : ∀ k b, log[k]? = some b →
        ((l.setSenderKey id (S.chain.chainAt ck ctr) ctr t).OpensNow o log t k b ↔ ctr ≤ k ∧ k - ctr ≤ o.maxSkip) := by
      intro k b hb
      rw [OpensNow, hnew]
      constructor
      · rintro ⟨r, hr, ho⟩
        cases hr
        obtain ⟨s, hs⟩ | hw := (openAt_iff hmake hlog hnd hb).mp ho
        · cases (SenderReceiver.get_prune.mp hs).1
        · exact hw
      · intro hw
        exact ⟨_, rfl, (openAt_iff hmake hlog hnd hb).mpr (Or.inr hw)⟩
    constructor
    · intro hkeep
      refine Or.inr ?_
      intro r hr _
      have hlost : ∀ k, k < ctr → r.Openable o t k → l.Done k := by
        intro k hk ho
        by_contra hd
        have hb := List.getElem?_eq_getElem (Nat.lt_of_lt_of_le hk hctr)
        have ho' := hkeep.opens k _ hb hd ⟨r, hr, (openAt_iff (hlive r hr) hlog hnd hb).mpr ho⟩
        have := ((hopen k _ hb).mp ho').1
        omega
      refine ⟨fun k hk hlt hskip => hlost k hlt (Or.inr ⟨hk, hskip⟩), ?_⟩
      intro k s hs
      have hlt := (hlive r hr).ordered k s (SenderReceiver.get_prune.mp hs).1
      exact hlost k (Nat.lt_of_lt_of_le hlt (hge r hr)) (Or.inl ⟨s, hs⟩)
    · intro hspare
      have hspare := hspare.resolve_left hme
      refine ⟨?_, ?_⟩
      · rintro k b hb hd ⟨r, hr, ho⟩
        obtain ⟨hgap, hstash⟩ := hspare r hr (hge r hr)
        rw [hopen k b hb]
        obtain ⟨s, hs⟩ | ⟨hk, hskip⟩ := (openAt_iff (hlive r hr) hlog hnd hb).mp ho
        · exact absurd (hstash k s hs) hd
        · have hle : ctr ≤ k := by
            by_contra hlt
            exact hd (hgap k hk (Nat.not_le.mp hlt) hskip)
          have := hge r hr
          exact ⟨hle, by omega⟩
      · intro r hr
        exact ⟨_, hnew, hge r hr⟩

/-! ## Receivers stay on the chain -/

theorem Standing.ended {l' : Lane S I} (hl : l.Standing ck) (hs : Same l l') (he : Ended l l' id) :
    l'.Standing ck where
  valid := by
    rw [hs.heap, hs.cur]
    exact hl.valid
  tracks := by
    rw [hs.heap]
    exact hl.tracks
  openings id' i c k ho := hl.openings id' i c k (he.opening _ _ _ _ ho).2

/-- One receiver changes in place. -/
theorem Standing.set {l' : Lane S I} {i : Nat} (hl : l.Standing ck) (hr : r.Tracks ck)
    (hheap : l'.heap = l.heap.set i r) (hcur : l'.cur = l.cur) (htasks : l'.tasks = l.tasks) : l'.Standing ck where
  valid := by
    rw [hcur, hheap]
    intro j hj
    obtain ⟨r', hr'⟩ := hl.valid j hj
    exact getElem?_set_isSome hr'
  tracks := by
    rw [hheap]
    intro j r' hj
    obtain ⟨-, rfl⟩ | ⟨-, hj⟩ := getElem?_set_some hj
    · exact hr
    · exact hl.tracks j r' hj
  openings := by
    intro id i c k ho
    rw [Opening, htasks] at ho
    exact hl.openings id i c k ho

theorem Standing.check {T : Task S I} {frame : Bytes} (hl : l.Standing ck) (hT : l.tasks.get id = some T) :
    (l.check o id T frame t).Standing ck := by
  have hcase := check_cases o l id T frame t
  generalize l.check o id T frame t = l' at hcase
  cases hcase with
  | dropped => exact hl.ended (settle_same ..) (settle_ended hT false)
  | held =>
      have hheld : (l.hold frame t).Standing ck := ⟨hl.valid, hl.tracks, hl.openings⟩
      exact hheld.ended (settle_same ..) (settle_ended (l := l.hold frame t) hT false)
  | @refused i asks r hr =>
      set l₁ : Lane S I := { l with heap := l.heap.set i (r.prune o t), asks } with hl₁
      have hpruned : l₁.Standing ck := hl.set ((hl.tracks i r hr).prune t) rfl rfl rfl
      exact hpruned.ended (settle_same ..) (settle_ended (l := l₁) hT false)
  | @begun i c a r hk hi hr hs =>
      have hpruned := (hl.tracks i r hr).prune (o := o) t
      set l₁ : Lane S I := { l with heap := l.heap.set i (r.prune o t) } with hl₁
      have hset : l₁.Standing ck := hl.set hpruned rfl rfl rfl
      refine ⟨hset.valid, hset.tracks, ?_⟩
      rintro id' i' c' k ⟨T', a', hg, hp, rfl⟩
      obtain ⟨rfl, rfl⟩ | ⟨-, hg⟩ := OrdMap.get_set_some hg
      · cases hp
        exact hpruned.onChain hs
      · exact hl.openings id' i' c' _ ⟨T', a', hg, hp, rfl⟩

theorem Standing.finish {T : Task S I} {opens : Open S} {i : Nat} {c : Candidate S.Key} {a : Session.Accepted I}
    (hl : l.Standing ck) (hi : Inv l) (hT : l.tasks.get id = some T) (hp : T.phase = .opening i c a) :
    (l.finish id T opens i c a t).Standing ck := by
  obtain he | ⟨r, pt, hr, -, he⟩ := finish_cases l id T opens i c a t
  · rw [he]
    exact hl.ended (settle_same ..) (settle_ended hT false)
  · rw [he]
    obtain ⟨r', hr', hfit⟩ := hi.opening id i c a.ctr ⟨T, a, hT, hp, rfl⟩
    have hsame := hr.symm.trans hr'
    cases hsame
    set l₁ : Lane S I := { l with
      heap := l.heap.set i (r.commit c a.ctr t)
      delivered := ⟨a.header, a.ct, pt⟩ :: l.delivered } with hl₁
    have hset : l₁.Standing ck := hl.set ((hl.tracks i r hr).commit hfit
      (hl.openings id i c a.ctr ⟨T, a, hT, hp, rfl⟩) t) rfl rfl rfl
    exact hset.ended (settle_same ..) (settle_ended (l := l₁) hT true)

theorem mem_heap_setSenderKey {key : S.Key} {i : Nat} (h : (l.setSenderKey id key ctr t).heap[i]? = some r) :
    l.heap[i]? = some r ∨ r = .make key ctr := by
  have happ : (l.heap ++ [SenderReceiver.make key ctr])[i]? = some r → l.heap[i]? = some r ∨ r = .make key ctr := by
    intro h
    rcases Nat.lt_or_ge i l.heap.length with hlt | hge
    · rw [List.getElem?_append_left hlt] at h
      exact Or.inl h
    · rw [List.getElem?_append_right hge, List.getElem?_singleton] at h
      split at h
      · exact Or.inr (Option.some.inj h).symm
      · cases h
  unfold setSenderKey at h
  split at h
  · exact Or.inl h
  split at h
  · exact Or.inl h
  dsimp only at h
  split at h
  · split at h
    · rw [(release_same ..).heap] at h
      exact happ h
    · exact Or.inl h
  · split at h
    · rw [(release_same ..).heap] at h
      exact happ h
    · exact happ h

theorem opening_release {use : Option Nat} {id' i k : Nat} {c : Candidate S.Key}
    (h : (l.release id use t).Opening id' i c k) : l.Opening id' i c k := by
  obtain ⟨T, a, hT, hp, hk⟩ := h
  unfold release at hT
  cases hq : l.heldSince t with
  | nil =>
      rw [hq] at hT
      exact ⟨T, a, (OrdMap.get_delete_some hT).2, hp, hk⟩
  | cons x todo =>
      rw [hq] at hT
      obtain ⟨-, rfl⟩ | ⟨-, hT⟩ := OrdMap.get_set_some hT
      · cases hp
      · exact ⟨T, a, hT, hp, hk⟩

theorem opening_setSenderKey {key : S.Key} {id' i k : Nat} {c : Candidate S.Key}
    (h : (l.setSenderKey id key ctr t).Opening id' i c k) : l.Opening id' i c k := by
  unfold setSenderKey at h
  split at h
  · exact h
  split at h
  · exact h
  dsimp only at h
  split at h
  · split at h
    · have ho := opening_release h
      exact ho
    · exact h
  · split at h
    · have ho := opening_release h
      exact ho
    · exact h

/-- In a run that keeps openings apart, with honest copies. -/
theorem Standing.reach {v : Session I} {member : I.Pub}
    (h : Reach (Lane.act o) (fun l a => l.Orderly o a ∧ Honest ck a) (Lane.start v member) l) : l.Standing ck := by
  have hstart : (Lane.start v member : Lane S I).Standing ck := {
    valid := fun i hi => by cases hi
    tracks := fun i r hr => by cases hr
    openings := by
      rintro id i c k ⟨T, a, hT, -⟩
      cases hT }
  refine h.invariant' hstart ?_
  intro l a hr hl hok
  have hi : Inv l := Inv.reach (hr.mono fun _ _ hok => hok.1)
  have hi' := hi.act hok.1
  cases a with
  | receive id frame =>
      have hsame : (l.receive id frame).heap = l.heap ∧
          ∀ id' i c k, (l.receive id frame).Opening id' i c k → l.Opening id' i c k := by
        unfold Lane.receive
        split
        · exact ⟨rfl, fun _ _ _ _ ho => ho⟩
        · refine ⟨rfl, ?_⟩
          rintro id' i c k ⟨T, a, hT, hp, hk⟩
          obtain ⟨-, rfl⟩ | ⟨-, hT⟩ := OrdMap.get_set_some hT
          · cases hp
          · exact ⟨T, a, hT, hp, hk⟩
      refine ⟨hi'.valid, ?_, fun id' i c k ho => hl.openings id' i c k (hsame.2 _ _ _ _ ho)⟩
      intro i r hr
      exact hl.tracks i r (hsame.1 ▸ hr)
  | setSenderKey id key ctr t =>
      refine ⟨hi'.valid, ?_, fun id' i c k ho => hl.openings id' i c k (opening_setSenderKey ho)⟩
      intro i r hr
      obtain hr | rfl := mem_heap_setSenderKey hr
      · exact hl.tracks i r hr
      · have hkey : key = S.chain.chainAt ck ctr := hok.2
        rw [hkey]
        exact Tracks.make ctr
  | resume id opens t =>
      rw [Lane.act, Lane.resume]
      cases hT : l.tasks.get id with
      | none => exact hl
      | some T =>
          dsimp only
          cases hp : T.phase with
          | checking frame => exact hl.check hT
          | opening i c a => exact hl.finish hi hT hp

end Lane

/-! ## A key comes again -/

namespace Symbolic

/-- The third frame has been opened, the two before it are on their way. -/
def gap : Lane suite identities :=
  ([Cmd.copy 0 0, .frame 0 2, .go 0, .go 0].map Cmd.act).foldl (Lane.act {}) laneOf

/-- As `gap`, with the first two opened as well. -/
def noGap : Lane suite identities :=
  ([Cmd.copy 0 0, .frame 0 2, .go 0, .go 0, .frame 0 0, .go 0, .go 0, .frame 0 1, .go 0, .go 0].map Cmd.act).foldl
    (Lane.act {}) laneOf

theorem sealedOn_threeSent : SealedOn seed threeSent.log := by
  intro k b hb
  have hlen : threeSent.log.length = 3 := by decide
  have hlt := (List.getElem?_eq_some_iff.mp hb).1
  have hall : ∀ k < 3, ∀ b ∈ threeSent.log[k]?, b.key = suite.chain.keyAt seed k ∧
      b.nonce = suite.aeadNonce b.key (Bytes.u32be k) := by decide
  exact hall k (hlen ▸ hlt) b hb

/-- The copy of counter 3 that follows takes what was set aside for the first two with it. -/
theorem gap_lost : ¬Lane.Keeps {} threeSent.log 0 gap
    (gap.setSenderKey 0 (suite.chain.chainAt seed 3) 3 0) := by
  intro h
  have hbefore : ∀ b ∈ threeSent.log[0]?, ∀ r ∈ gap.live,
      (r.openAt {} (Box.openIn threeSent.log) 0 0 0 b.aad b.ct).2.toOption = some b.pt := by decide
  obtain ⟨b, hb⟩ := Option.isSome_iff_exists.mp (show (threeSent.log[0]?).isSome by decide)
  obtain ⟨r, hr⟩ := Option.isSome_iff_exists.mp (show gap.live.isSome by decide)
  have hafter : ∀ b ∈ threeSent.log[0]?, ∀ r ∈ (gap.setSenderKey 0 (suite.chain.chainAt seed 3) 3 0).live,
      (r.openAt {} (Box.openIn threeSent.log) 0 0 0 b.aad b.ct).2.toOption = none := by decide
  have hdone : 0 ∉ gap.delivered.map Delivery.ctr := by decide
  have hopt := hbefore b hb r hr
  have hok : (r.openAt {} (Box.openIn threeSent.log) 0 0 0 b.aad b.ct).2 = .ok b.pt := by
    generalize (r.openAt {} (Box.openIn threeSent.log) 0 0 0 b.aad b.ct).2 = res at hopt
    cases res with
    | error e => cases hopt
    | ok pt => rw [Option.some.inj hopt]
  obtain ⟨r', hr', ho⟩ := h.opens 0 b hb hdone ⟨r, hr, hok⟩
  have hnone := hafter b hb r' hr'
  rw [ho] at hnone
  cases hnone

theorem noGap_kept : Lane.Keeps {} threeSent.log 0 noGap
    (noGap.setSenderKey 0 (suite.chain.chainAt seed 3) 3 0) := by
  have hadm : Admits (Lane.act {}) (fun l a => Lane.Orderly {} l a ∧ Lane.Honest seed a) laneOf
      ([Cmd.copy 0 0, .frame 0 2, .go 0, .go 0, .frame 0 0, .go 0, .go 0, .frame 0 1, .go 0, .go 0].map Cmd.act) := by
    decide
  have hstanding : noGap.Standing seed := Lane.Standing.reach (hadm.reach .start)
  have hlive : ∀ r ∈ noGap.live, r.n = 3 ∧ (r.prune {} 0).skipped.entries.length = 0 := by decide
  have hspares : Lane.Spares {} noGap 3 0 := by
    refine Or.inr ?_
    intro r hr _
    obtain ⟨hn, hempty⟩ := hlive r hr
    refine ⟨fun k hk hlt => by omega, ?_⟩
    intro k s hs
    have hmem := OrdMap.get_eq_some.mp hs
    rw [List.eq_nil_of_length_eq_zero hempty] at hmem
    cases hmem
  exact (Lane.setSenderKey_keeps_iff ideal ⟨0, rfl⟩ sealedOn_threeSent hstanding (by decide +kernel)
    (by decide)).mpr hspares

end Symbolic

end EncedoChat.Group
