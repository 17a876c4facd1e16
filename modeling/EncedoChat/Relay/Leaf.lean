import EncedoChat.Lib.Run
import EncedoChat.Relay.Node

/-!
# What a leaf is told

The two hooks of `leaf.mjs` on the GossipSub of a relay, which calls `sendSubscriptions` for every peer it is connected
to, and `handleReceivedSubscription` for everything a peer announces before `relay.mjs` hears of it. What is told is
kept, for each peer since it connected.
-/

namespace EncedoChat.Relay

variable {π τ : Type} [DecidableEq π] [DecidableEq τ]

structure Pubsub (π τ : Type) where
  node : Node π τ
  /-- the peers connected -/
  peers : List π
  /-- who holds a topic -/
  topics : OrdMap τ (List π)
  /-- to whom, about which topic, and what -/
  told : List (π × τ × Bool)

/-- The last thing told; to have heard nothing is to have heard that it is not carried. -/
def lastOf (p : π) (t : τ) (told : List (π × τ × Bool)) : Bool :=
  told.foldl (fun b m => if m.1 = p ∧ m.2.1 = t then m.2.2 else b) false

inductive Act (π τ : Type) where
  | connect (peer : π)
  | disconnect (peer : π)
  /-- the announcements of one RPC -/
  | rpc (peer : π) (subscriptions : List (τ × Bool)) (now : Time)
  /-- whatever else the relay does -/
  | own (e : Event π τ)

namespace Pubsub

variable (C : Config π τ) (g : Pubsub π τ)

def start : Pubsub π τ := ⟨.start, [], .empty, []⟩

def holders (t : τ) : List π := (g.topics.get t).getD []

def lastTold (p : π) (t : τ) : Bool := lastOf p t g.told

/-- The library's `sendSubscriptions`. -/
def send (toPeer : π) (topics : List τ) (subscribe : Bool) : Pubsub π τ :=
  { g with told := g.told ++ topics.map fun t => (toPeer, t, subscribe) }

/-- A leaf hears about a topic only if it holds that topic itself. -/
def sendSubscriptions (toPeer : π) (topics : List τ) (subscribe : Bool) : Pubsub π τ :=
  if toPeer ∈ C.siblings then g.send toPeer topics subscribe
  else g.send toPeer (topics.filter fun t => toPeer ∈ g.holders t) subscribe

/-- The library's `handleReceivedSubscription`. -/
def recv (frm : π) (topic : τ) (subscribe : Bool) : Pubsub π τ :=
  let others := (g.holders topic).filter fun p => p ≠ frm
  { g with topics := g.topics.set topic (if subscribe then others ++ [frm] else others) }

/-- They hold it now, and so do we: say so, to them alone. -/
def handleReceivedSubscription (frm : π) (topic : τ) (subscribe : Bool) : Pubsub π τ :=
  let g := g.recv frm topic subscribe
  if subscribe ∧ frm ∉ C.siblings ∧ topic ∈ g.node.topics then g.send frm [topic] true else g

/-- An own subscribe or unsubscribe. -/
def announce (topic : τ) (subscribe : Bool) : Pubsub π τ :=
  g.peers.foldl (fun g p => g.sendSubscriptions C p [topic] subscribe) g

/-- The relay goes on; what it unsubscribed from and subscribed to is announced. -/
def follow (node : Node π τ) : Pubsub π τ :=
  let gone := g.node.topics.filter fun t => t ∉ node.topics
  let come := node.topics.filter fun t => t ∉ g.node.topics
  come.foldl (fun g t => g.announce C t true) (gone.foldl (fun g t => g.announce C t false) { g with node := node })

/-- One subscription of a `subscription-change`. -/
def handle (peer : π) (now : Time) (s : τ × Bool) : Pubsub π τ :=
  g.follow C (g.node.subscription C peer s.1 s.2 now)

def received (frm : π) (subscriptions : List (τ × Bool)) : Pubsub π τ :=
  subscriptions.foldl (fun g s => g.handleReceivedSubscription C frm s.1 s.2) g

def rpc (peer : π) (subscriptions : List (τ × Bool)) (now : Time) : Pubsub π τ :=
  subscriptions.foldl (fun g s => g.handle C peer now s) (g.received C peer subscriptions)

/-- Our whole subscription list goes to every peer that connects. -/
def connect (peer : π) : Pubsub π τ :=
  if peer ∈ g.peers then g else { g with peers := g.peers ++ [peer] }.sendSubscriptions C peer g.node.topics true

def disconnect (peer : π) : Pubsub π τ :=
  { node := { g.node with quota := g.node.quota.forget peer }
    peers := g.peers.filter fun p => p ≠ peer
    topics := g.topics.map fun _ ps => ps.filter fun p => p ≠ peer
    told := g.told.filter fun m => m.1 ≠ peer }

def act : Act π τ → Pubsub π τ
  | .connect peer => g.connect C peer
  | .disconnect peer => g.disconnect peer
  | .rpc peer subscriptions now => if peer ∈ g.peers then g.rpc C peer subscriptions now else g
  | .own (.subscription ..) | .own (.disconnect ..) => g
  | .own e => g.follow C (g.node.act C e).1

/-! ## When the relay comes back to a topic -/

/-- Would the relay join a topic it does not carry? -/
def joins (peer : π) (topic : τ) : Prop := (g.node.granted C peer topic).1 = true ∧ g.node.topics.length < C.maxTopics

/-- A leaf that was last told that its topic is carried is not refused it. -/
def Repairs (peer : π) (s : τ × Bool) : Prop :=
  s.2 = true → peer ∉ C.siblings → peer ∈ g.holders s.1 → s.1 ∉ g.node.topics → g.lastTold peer s.1 = true →
    g.joins C peer s.1

def LeafMeets : Act π τ → Prop
  | .rpc peer subscriptions now =>
    Admits (fun g s => g.handle C peer now s) (fun g s => g.Repairs C peer s) (g.received C peer subscriptions) subscriptions
  | _ => True

instance (peer : π) (s : τ × Bool) : Decidable (g.Repairs C peer s) := by
  unfold Repairs joins
  infer_instance

instance (a : Act π τ) : Decidable (g.LeafMeets C a) := by
  cases a <;> unfold LeafMeets <;> infer_instance

end Pubsub

/-! ## What was told last -/

theorem lastOf_append (p : π) (t : τ) (told : List (π × τ × Bool)) (q : π) (ts : List τ) (b : Bool) :
    lastOf p t (told ++ ts.map fun t => (q, t, b)) = if q = p ∧ t ∈ ts then b else lastOf p t told := by
  induction ts using List.reverseRecOn with
  | nil => simp
  | append_singleton ts t' ih =>
      rw [List.map_append, ← List.append_assoc, lastOf, List.foldl_append]
      have hsnoc : ∀ o, List.foldl (fun b m => if m.1 = p ∧ m.2.1 = t then m.2.2 else b) o
          (List.map (fun t => (q, t, b)) [t']) = if q = p ∧ t' = t then b else o := fun _ => rfl
      rw [hsnoc, ← lastOf, ih]
      by_cases hq : q = p
      · by_cases ht : t' = t
        · simp [hq, ht]
        · simp [hq, ht, Ne.symm ht]
      · simp [hq]

theorem lastOf_filter {p q : π} (hne : p ≠ q) (t : τ) (told : List (π × τ × Bool)) :
    lastOf p t (told.filter fun m => m.1 ≠ q) = lastOf p t told := by
  induction told using List.reverseRecOn with
  | nil => rfl
  | append_singleton told m ih =>
      have hsnoc : lastOf p t (told ++ [m]) = if m.1 = p ∧ m.2.1 = t then m.2.2 else lastOf p t told := by
        rw [lastOf, List.foldl_append]
        rfl
      rw [List.filter_append, hsnoc]
      by_cases hm : m.1 = q
      · have hgone : List.filter (fun m : π × τ × Bool => decide (m.1 ≠ q)) [m] = [] := by simp [hm]
        rw [hgone, List.append_nil, ih, if_neg fun h => hne (h.1.symm.trans hm)]
      · have hstay : List.filter (fun m : π × τ × Bool => decide (m.1 ≠ q)) [m] = [m] := by simp [hm]
        rw [hstay, lastOf, List.foldl_append]
        exact congrArg (fun b => if m.1 = p ∧ m.2.1 = t then m.2.2 else b) ih

namespace Pubsub

variable {C : Config π τ} {g : Pubsub π τ} {p : π} {t : τ}

theorem lastTold_send (g : Pubsub π τ) (q p : π) (ts : List τ) (t : τ) (b : Bool) :
    (g.send q ts b).lastTold p t = if q = p ∧ t ∈ ts then b else g.lastTold p t :=
  lastOf_append ..

/-- Of a topic it holds a leaf hears. -/
theorem lastTold_sendSubscriptions (g : Pubsub π τ) (q : π) (ts : List τ) (b : Bool) (hp : p ∈ g.holders t) :
    (g.sendSubscriptions C q ts b).lastTold p t = if q = p ∧ t ∈ ts then b else g.lastTold p t := by
  rw [sendSubscriptions]
  split
  · exact lastTold_send ..
  · rw [lastTold_send]
    by_cases hq : q = p
    · subst hq
      simp [hp]
    · simp [hq]

/-- Where something is only sent, what is told changes and nothing else. -/
structure Sent (g g' : Pubsub π τ) : Prop where
  node : g'.node = g.node
  peers : g'.peers = g.peers
  topics : g'.topics = g.topics

omit [DecidableEq π] [DecidableEq τ] in
theorem Sent.rfl : Sent g g := ⟨.refl _, .refl _, .refl _⟩

omit [DecidableEq π] [DecidableEq τ] in
theorem Sent.trans {g' g'' : Pubsub π τ} (h : Sent g g') (h' : Sent g' g'') : Sent g g'' :=
  ⟨h'.node.trans h.node, h'.peers.trans h.peers, h'.topics.trans h.topics⟩

omit [DecidableEq π] in
theorem Sent.holders {g' : Pubsub π τ} (h : Sent g g') (t : τ) : g'.holders t = g.holders t := by
  rw [Pubsub.holders, h.topics]
  rfl

theorem sent_sendSubscriptions (C : Config π τ) (g : Pubsub π τ) (q : π) (ts : List τ) (b : Bool) :
    Sent g (g.sendSubscriptions C q ts b) := by
  rw [sendSubscriptions]
  split <;> exact ⟨.refl _, .refl _, .refl _⟩

theorem sent_foldl {α : Type} {f : Pubsub π τ → α → Pubsub π τ} (hf : ∀ g a, Sent g (f g a)) (as : List α)
    (g : Pubsub π τ) : Sent g (as.foldl f g) := by
  induction as generalizing g with
  | nil => exact .rfl
  | cons a as ih => exact (hf g a).trans (ih (f g a))

theorem sent_announce (C : Config π τ) (g : Pubsub π τ) (topic : τ) (b : Bool) : Sent g (g.announce C topic b) :=
  sent_foldl (fun g q => g.sent_sendSubscriptions C q [topic] b) g.peers g

theorem lastTold_announce (g : Pubsub π τ) (topic : τ) (b : Bool) (hp : p ∈ g.holders t) (hconn : p ∈ g.peers) :
    (g.announce C topic b).lastTold p t = if t = topic then b else g.lastTold p t := by
  have hall : ∀ (qs : List π) (g : Pubsub π τ), p ∈ g.holders t →
      (qs.foldl (fun g q => g.sendSubscriptions C q [topic] b) g).lastTold p t =
        if p ∈ qs ∧ t = topic then b else g.lastTold p t := by
    intro qs
    induction qs with
    | nil => simp
    | cons q qs ih =>
        intro g hp
        rw [List.foldl_cons, ih _ ((g.sent_sendSubscriptions C q [topic] b).holders t ▸ hp),
          lastTold_sendSubscriptions _ _ _ _ hp]
        by_cases hq : q = p
        · by_cases ht : t = topic <;> simp [hq, ht]
        · simp [hq, Ne.symm hq]
  rw [announce, hall _ _ hp]
  simp [hconn]

theorem lastTold_announces (g : Pubsub π τ) (ts : List τ) (b : Bool) (hp : p ∈ g.holders t) (hconn : p ∈ g.peers) :
    (ts.foldl (fun g t => g.announce C t b) g).lastTold p t = if t ∈ ts then b else g.lastTold p t := by
  induction ts generalizing g with
  | nil => simp
  | cons t' ts ih =>
      have hsent := g.sent_announce C t' b
      rw [List.foldl_cons, ih _ (hsent.holders t ▸ hp) (hsent.peers.symm ▸ hconn), lastTold_announce _ _ _ hp hconn]
      by_cases ht : t = t' <;> simp [ht]

theorem follow_same (C : Config π τ) (g : Pubsub π τ) (node : Node π τ) : (g.follow C node).node = node ∧
    (g.follow C node).peers = g.peers ∧ ∀ t, (g.follow C node).holders t = g.holders t := by
  have hsent : Sent { g with node := node } (g.follow C node) :=
    (sent_foldl (fun g t => g.sent_announce C t false) _ _).trans (sent_foldl (fun g t => g.sent_announce C t true) _ _)
  exact ⟨hsent.node, hsent.peers, hsent.holders⟩

/-- Whoever holds a topic hears where the relay stands with it, when that changes. -/
theorem lastTold_follow (g : Pubsub π τ) (node : Node π τ) (hp : p ∈ g.holders t) (hconn : p ∈ g.peers) :
    (g.follow C node).lastTold p t =
      if t ∈ node.topics ↔ t ∈ g.node.topics then g.lastTold p t else decide (t ∈ node.topics) := by
  have hsent := sent_foldl (fun (g : Pubsub π τ) t => g.sent_announce C t false)
    (g.node.topics.filter fun t => t ∉ node.topics) { g with node := node }
  rw [follow, lastTold_announces _ _ _ (hsent.holders t ▸ hp) (hsent.peers.symm ▸ hconn),
    lastTold_announces { g with node := node } _ _ hp hconn]
  have hsame : ({ g with node := node } : Pubsub π τ).lastTold p t = g.lastTold p t := rfl
  rw [hsame]
  by_cases ht : t ∈ node.topics <;> by_cases ht' : t ∈ g.node.topics <;> simp [ht, ht']

/-! ## Agreement -/

/-- A leaf was told where the relay stands with the topics it holds, but for those still to be gone through. -/
structure AgreesBut (C : Config π τ) (g : Pubsub π τ) (q : π) (pending : List (τ × Bool)) : Prop where
  connected : ∀ t, ∀ p ∈ g.holders t, p ∈ g.peers
  agree : ∀ t, ∀ p ∈ g.holders t, p ∉ C.siblings → g.lastTold p t = decide (t ∈ g.node.topics) ∨
    p = q ∧ (t, true) ∈ pending ∧ t ∉ g.node.topics

/-- A leaf was told where the relay stands with the topics it holds. -/
structure Agrees (C : Config π τ) (g : Pubsub π τ) : Prop where
  connected : ∀ t, ∀ p ∈ g.holders t, p ∈ g.peers
  agree : ∀ t, ∀ p ∈ g.holders t, p ∉ C.siblings → g.lastTold p t = decide (t ∈ g.node.topics)

theorem Agrees.start : Agrees C (start : Pubsub π τ) where
  connected t p h := by cases h
  agree t p h := by cases h

theorem Agrees.but (h : Agrees C g) (q : π) (pending : List (τ × Bool)) : AgreesBut C g q pending :=
  ⟨h.connected, fun t p hp hleaf => .inl (h.agree t p hp hleaf)⟩

theorem AgreesBut.done {q : π} (h : AgreesBut C g q []) : Agrees C g := by
  refine ⟨h.connected, fun t p hp hleaf => ?_⟩
  obtain h | ⟨-, hin, -⟩ := h.agree t p hp hleaf
  · exact h
  · cases hin

/-- The relay goes on. -/
theorem Agrees.follow (h : Agrees C g) (node : Node π τ) : Agrees C (g.follow C node) := by
  obtain ⟨hnode, hpeers, hholders⟩ := g.follow_same C node
  refine ⟨fun t p hp => ?_, fun t p hp hleaf => ?_⟩
  · rw [hpeers]
    exact h.connected t p (hholders t ▸ hp)
  · rw [hholders] at hp
    rw [lastTold_follow g node hp (h.connected t p hp), hnode]
    split
    · rename_i heq
      rw [h.agree t p hp hleaf, decide_eq_decide]
      exact heq.symm
    · rfl

theorem holders_recv (g : Pubsub π τ) (frm : π) (topic : τ) (b : Bool) (t : τ) :
    p ∈ (g.recv frm topic b).holders t ↔ if t = topic ∧ p = frm then b = true else p ∈ g.holders t := by
  rw [holders, recv, OrdMap.get_set]
  by_cases ht : t = topic
  · subst ht
    by_cases hp : p = frm
    · subst hp
      cases b <;> simp
    · cases b <;> simp [hp]
  · simp [ht, holders]

/-- What is received is either told at once or still to be gone through. -/
theorem AgreesBut.recv {q : π} {pending : List (τ × Bool)} (h : AgreesBut C g q pending) (hq : q ∈ g.peers)
    {s : τ × Bool} (hs : s ∈ pending) : AgreesBut C (g.handleReceivedSubscription C q s.1 s.2) q pending := by
  have hconn : ∀ t, ∀ p ∈ (g.recv q s.1 s.2).holders t, p ∈ g.peers := by
    intro t p hp
    rw [holders_recv] at hp
    split at hp
    · rename_i heq
      exact heq.2 ▸ hq
    · exact h.connected t p hp
  have hold : ∀ t, ∀ p ∈ (g.recv q s.1 s.2).holders t, ¬ (t = s.1 ∧ p = q) → p ∉ C.siblings →
      g.lastTold p t = decide (t ∈ g.node.topics) ∨ p = q ∧ (t, true) ∈ pending ∧ t ∉ g.node.topics := by
    intro t p hp hne hleaf
    rw [holders_recv, if_neg hne] at hp
    exact h.agree t p hp hleaf
  rw [handleReceivedSubscription]
  split
  · rename_i htell
    refine ⟨hconn, fun t p hp hleaf => ?_⟩
    rw [lastTold_send]
    by_cases heq : t = s.1 ∧ p = q
    · rw [if_pos ⟨heq.2.symm, by rw [heq.1]; exact List.mem_singleton_self _⟩, heq.1]
      exact .inl (decide_eq_true htell.2.2).symm
    · rw [if_neg fun hin => heq ⟨List.mem_singleton.mp hin.2, hin.1.symm⟩]
      exact hold t p hp heq hleaf
  · rename_i hquiet
    refine ⟨hconn, fun t p hp hleaf => ?_⟩
    by_cases heq : t = s.1 ∧ p = q
    · obtain ⟨rfl, rfl⟩ := heq
      have hsub : s.2 = true := by
        rw [holders_recv, if_pos ⟨.refl _, .refl _⟩] at hp
        exact hp
      refine .inr ⟨.refl _, ?_, fun hin => hquiet ⟨hsub, hleaf, hin⟩⟩
      rw [← hsub]
      exact hs
    · exact hold t p hp heq hleaf

theorem AgreesBut.received {q : π} {pending : List (τ × Bool)} {subs : List (τ × Bool)} (h : AgreesBut C g q pending)
    (hq : q ∈ g.peers) (hsub : ∀ s ∈ subs, s ∈ pending) : AgreesBut C (g.received C q subs) q pending := by
  induction subs generalizing g with
  | nil => exact h
  | cons s subs ih =>
      have hpeers : (g.handleReceivedSubscription C q s.1 s.2).peers = g.peers := by
        rw [handleReceivedSubscription]
        split <;> rfl
      exact ih (h.recv hq (hsub s List.mem_cons_self)) (hpeers.symm ▸ hq) fun s' hs' =>
        hsub s' (List.mem_cons_of_mem s hs')

/-- Where the relay can, it joins. -/
theorem subscription_joins {q : π} (hleaf : q ∉ C.siblings) (hj : g.joins C q t) (now : Time) :
    t ∈ (g.node.subscription C q t true now).topics := by
  have hshould : shouldJoin C q = true := by simp [shouldJoin, hleaf]
  rw [Node.subscription, if_pos (Eq.refl true), if_pos hshould]
  dsimp only
  rw [if_pos hj.1]
  by_cases ht : t ∈ g.node.topics
  · rw [if_neg fun h => h.1 ht]
    exact ht
  · rw [if_pos ⟨ht, hj.2⟩]
    exact List.mem_append_right _ (List.mem_singleton_self _)

theorem AgreesBut.handle {q : π} {s : τ × Bool} {pending : List (τ × Bool)} (h : AgreesBut C g q (s :: pending))
    (hr : g.Repairs C q s) (now : Time) : AgreesBut C (g.handle C q now s) q pending := by
  obtain ⟨hnode, hpeers, hholders⟩ := g.follow_same C (g.node.subscription C q s.1 s.2 now)
  refine ⟨fun t p hp => ?_, fun t p hp hleaf => ?_⟩
  · rw [Pubsub.handle, hholders] at hp
    rw [Pubsub.handle, hpeers]
    exact h.connected t p hp
  · rw [Pubsub.handle, hholders] at hp
    rw [Pubsub.handle, lastTold_follow g _ hp (h.connected t p hp), hnode]
    split
    · rename_i hsame
      obtain hold | ⟨rfl, hin, hnot⟩ := h.agree t p hp hleaf
      · exact .inl (hold.trans (decide_eq_decide.mpr hsame.symm))
      · obtain hin | hin := List.mem_cons.mp hin
        · -- the relay does not join, so nothing had been told
          refine .inl ?_
          rw [decide_eq_false fun ht => hnot (hsame.mp ht)]
          by_contra htold
          subst hin
          exact hnot (hsame.mp (subscription_joins hleaf
            (hr (.refl _) hleaf hp hnot (Bool.eq_true_of_not_eq_false htold)) now))
        · exact .inr ⟨.refl _, hin, fun ht => hnot (hsame.mp ht)⟩
    · exact .inl (.refl _)

theorem AgreesBut.handled {q : π} {subs : List (τ × Bool)} {now : Time} (h : AgreesBut C g q subs)
    (hr : Admits (fun g s => g.handle C q now s) (fun g s => g.Repairs C q s) g subs) :
    Agrees C (subs.foldl (fun g s => g.handle C q now s) g) := by
  induction subs generalizing g with
  | nil => exact h.done
  | cons s subs ih => exact ih (h.handle hr.1 now) hr.2

theorem Agrees.connect (h : Agrees C g) (q : π) : Agrees C (g.connect C q) := by
  rw [Pubsub.connect]
  split
  · exact h
  · have hsent := ({ g with peers := g.peers ++ [q] } : Pubsub π τ).sent_sendSubscriptions C q g.node.topics true
    refine ⟨fun t p hp => ?_, fun t p hp hleaf => ?_⟩
    · rw [hsent.peers]
      exact List.mem_append_left _ (h.connected t p (hsent.holders t ▸ hp))
    · have hold : p ∈ g.holders t := hsent.holders t ▸ hp
      rw [lastTold_sendSubscriptions { g with peers := g.peers ++ [q] } _ _ _ hold, hsent.node]
      split
      · rename_i htold
        exact (decide_eq_true htold.2).symm
      · exact h.agree t p hold hleaf

theorem holders_disconnect (g : Pubsub π τ) (q : π) (t : τ) :
    (g.disconnect q).holders t = (g.holders t).filter fun p => p ≠ q := by
  rw [holders, disconnect, OrdMap.get_map, holders]
  cases g.topics.get t <;> rfl

theorem Agrees.disconnect (h : Agrees C g) (q : π) : Agrees C (g.disconnect q) := by
  refine ⟨fun t p hp => ?_, fun t p hp hleaf => ?_⟩ <;> rw [holders_disconnect] at hp <;>
    obtain ⟨hp, hne⟩ := List.mem_filter.mp hp
  · exact List.mem_filter.mpr ⟨h.connected t p hp, hne⟩
  · have hlast : (g.disconnect q).lastTold p t = g.lastTold p t := lastOf_filter (of_decide_eq_true hne) t g.told
    rw [hlast]
    exact h.agree t p hp hleaf

theorem Agrees.act (h : Agrees C g) {a : Act π τ} (hmeets : g.LeafMeets C a) : Agrees C (g.act C a) := by
  cases a with
  | connect peer => exact h.connect peer
  | disconnect peer => exact h.disconnect peer
  | rpc peer subscriptions now =>
      rw [Pubsub.act]
      split
      · rename_i hconn
        exact ((h.but peer subscriptions).received hconn fun _ hs => hs).handled hmeets
      · exact h
  | own e =>
      cases e with
      | subscription | disconnect => exact h
      | _ => exact h.follow _

/-- In a run where the relay refuses no leaf a topic that it last told this leaf it carries, every leaf was last told
where the relay stands with each topic it holds. -/
theorem told_where_it_stands (h : Reach (act C) (LeafMeets C) start g) (hp : p ∈ g.holders t) (hleaf : p ∉ C.siblings) :
    g.lastTold p t = decide (t ∈ g.node.topics) :=
  (h.invariant .start fun _ _ hs hok => hs.act hok : Agrees C g).agree t p hp hleaf

/-- A relay with room for two topics, and no room to spare in the second run. -/
def smallRelay (maxTopics : Nat) : Config String Nat where
  maxTopics := maxTopics
  perPeer := 4
  idleTtl := 120000
  localOnly := true
  siblings := ["sibling"]
  self := "relay"
  loadTopic := 0
  parse _ := none

/-- A leaf comes back to a topic that was evicted while it did not hold it. -/
def returnRun : List (Act String Nat) :=
  [.connect "leaf", .rpc "leaf" [(7, true)] 0, .rpc "leaf" [(7, false)] 5, .own (.sweep 200000),
    .rpc "leaf" [(7, true), (8, true)] 200001]

theorem sample_told : (returnRun.foldl (act (smallRelay 2)) start).lastTold "leaf" 7 =
    decide (7 ∈ (returnRun.foldl (act (smallRelay 2)) start).node.topics) :=
  told_where_it_stands
    (Admits.reach .start (by decide : Admits (act (smallRelay 2)) (LeafMeets (smallRelay 2)) start returnRun))
    (by decide) (by decide)

/-- In between somebody else takes the last room there is. -/
def crowdedRun : List (Act String Nat) :=
  [.connect "leaf", .connect "other", .rpc "leaf" [(7, true)] 0, .rpc "leaf" [(7, false)] 5, .own (.sweep 200000),
    .rpc "other" [(9, true)] 200001, .rpc "leaf" [(7, true)] 200002]

/-- The leaf holds the topic and was last told that it is carried; it is not. -/
theorem told_otherwise : Reach (act (smallRelay 1)) (fun _ _ => True) start (crowdedRun.foldl (act (smallRelay 1)) start) ∧
    "leaf" ∈ (crowdedRun.foldl (act (smallRelay 1)) start).holders 7 ∧
    (crowdedRun.foldl (act (smallRelay 1)) start).lastTold "leaf" 7 = true ∧
    7 ∉ (crowdedRun.foldl (act (smallRelay 1)) start).node.topics :=
  ⟨Admits.reach .start (.of_forall (fun _ _ => trivial) _ _), by decide, by decide, by decide⟩

end Pubsub

end EncedoChat.Relay
