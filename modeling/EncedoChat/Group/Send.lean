import EncedoChat.Lib.Run
import EncedoChat.Group.SenderKey
import EncedoChat.Group.Session

/-!
# Calls of `send` on one session

`GroupSession.send` and `seal` of `lib/senderkey.ts`, cut at their awaits. Any number of calls are under way
at once; each step below is one call going on to its next await.
-/

namespace EncedoChat.Group

variable {S : Suite} {I : Identities}

/-- What a call of `send` waits for, and the locals it still needs. -/
inductive Sending (S : Suite) where
  /-- `msgKey`, of the key the chain had when the call was made -/
  | keyed (header pt : Bytes) (mk : S.Key)
  /-- `aeadSeal` -/
  | encrypting (header pt ct : Bytes)
  /-- `chainNext` -/
  | stepping (header pt ct : Bytes) (next : S.Key)
  /-- the MACs, one after another; the chain has moved -/
  | tagging (header pt ct : Bytes)

structure Sent where
  frame : Bytes
  pt : Bytes

/-- A session that sends. -/
structure Sender (S : Suite) (I : Identities) where
  session : Session I
  chain : SendChain S
  calls : OrdMap Nat (Sending S)
  /-- everything the AEAD sealed, oldest first -/
  log : Log S
  /-- the frames returned, newest first -/
  frames : List Sent

inductive SendAct where
  | send (id : Nat) (pt : Bytes)
  | resume (id : Nat)

namespace Sender

def start (v : Session I) (chain : SendChain S) : Sender S I := ⟨v, chain, .empty, [], []⟩

/-- A call up to its first await. -/
def send (w : Sender S I) (id : Nat) (pt : Bytes) : Sender S I :=
  match w.calls.get id with
  | some _ => w
  | none =>
    let ctr := w.chain.n
    let header := encodeHeader (w.session.headerAt ctr)
    { w with calls := w.calls.set id (.keyed header pt (S.chain.messageKey w.chain.key)) }

/-- A call from one await to the next. -/
def resume (w : Sender S I) (id : Nat) : Sender S I :=
  match w.calls.get id with
  | none => w
  | some (.keyed header pt key) =>
    let b := aeadBox key w.chain.n header pt
    { w with log := w.log ++ [b], calls := w.calls.set id (.encrypting header pt b.ct) }
  | some (.encrypting header pt ct) =>
    { w with calls := w.calls.set id (.stepping header pt ct (S.chain.chainNext w.chain.key)) }
  | some (.stepping header pt ct next) =>
    { w with chain := ⟨next, w.chain.n + 1⟩, calls := w.calls.set id (.tagging header pt ct) }
  | some (.tagging header pt ct) =>
    { w with
      frames := ⟨encodeFrame (w.session.frameFor header ct), pt⟩ :: w.frames
      calls := w.calls.delete id }

def act (w : Sender S I) : SendAct → Sender S I
  | .send id pt => w.send id pt
  | .resume id => w.resume id

end Sender

/-- The call has yet to move the chain. -/
def Sending.holdsChain : Sending S → Bool
  | .tagging .. => false
  | _ => true

/-- No call starts while another has yet to move the chain, and the counter fits its four bytes. -/
def Sender.OneAtATime (w : Sender S I) : SendAct → Prop
  | .send _ _ => (∀ e ∈ w.calls.entries, e.2.holdsChain = false) ∧ w.chain.n < 2 ^ 32
  | .resume _ => True

instance (w : Sender S I) (a : SendAct) : Decidable (w.OneAtATime a) :=
  match a with
  | .send _ _ => inferInstanceAs (Decidable (_ ∧ _))
  | .resume _ => isTrue trivial

/-- The counter in a frame's header. -/
def Sent.ctr (f : Sent) : Nat := (decodeHeader (Bytes.slice f.frame 2 (2 + HDR_LEN))).ctr

/-! ## The invariant of a run -/

/-- The seal of counter `k`: under its own message key, with the header that says `k`. -/
def boxAt (v : Session I) (ck : S.Key) (k : Nat) (pt : Bytes) : Box S.Key S.Nonce :=
  aeadBox (S.chain.keyAt ck k) k (encodeHeader (v.headerAt k)) pt

/-- The log starts with the seal of counter `n₀`, and has that of counter `k`. -/
def LogAt (log : Log S) (n₀ k : Nat) (b : Box S.Key S.Nonce) : Prop := n₀ ≤ k ∧ log[k - n₀]? = some b

/-- Counter `k` was sealed, and this header, plaintext and ciphertext are of its seal. -/
def SealedAt (v : Session I) (log : Log S) (n₀ k : Nat) (header pt ct : Bytes) : Prop :=
  k < 2 ^ 32 ∧ header = encodeHeader (v.headerAt k) ∧ ∃ b, LogAt log n₀ k b ∧ b.pt = pt ∧ b.ct = ct

/-- Where a call stands that is to seal, or has sealed, counter `k`; the chain is at `n`. -/
inductive CallAt (v : Session I) (ck : S.Key) (n₀ : Nat) (log : Log S) (n : Nat) : Nat → Sending S → Prop
  | keyed {pt} : n < 2 ^ 32 → n₀ + log.length = n →
      CallAt v ck n₀ log n n (.keyed (encodeHeader (v.headerAt n)) pt (S.chain.keyAt ck n))
  | encrypting {header pt ct} : n₀ + log.length = n + 1 → SealedAt v log n₀ n header pt ct →
      CallAt v ck n₀ log n n (.encrypting header pt ct)
  | stepping {header pt ct} : n₀ + log.length = n + 1 → SealedAt v log n₀ n header pt ct →
      CallAt v ck n₀ log n n (.stepping header pt ct (S.chain.chainAt ck (n + 1)))
  | tagging {k header pt ct} : k < n → SealedAt v log n₀ k header pt ct →
      CallAt v ck n₀ log n k (.tagging header pt ct)

/-- `place i` is the counter of call `i`. -/
structure Sender.Inv (ck : S.Key) (n₀ : Nat) (place : Nat → Nat) (w : Sender S I) : Prop where
  key : w.chain.key = S.chain.chainAt ck w.chain.n
  log : ∀ k b, LogAt w.log n₀ k b → b = boxAt w.session ck k b.pt
  quiet : (∀ i c, w.calls.get i = some c → c.holdsChain = false) → n₀ + w.log.length = w.chain.n
  call : ∀ i c, w.calls.get i = some c → CallAt w.session ck n₀ w.log w.chain.n (place i) c
  apart : ∀ i j c d, w.calls.get i = some c → w.calls.get j = some d → place i = place j → i = j
  frame : ∀ f ∈ w.frames, f.ctr < w.chain.n ∧ f.ctr < 2 ^ 32 ∧ ∃ b, LogAt w.log n₀ f.ctr b ∧ b.pt = f.pt ∧
    f.frame = encodeFrame (w.session.frameFor (encodeHeader (w.session.headerAt f.ctr)) b.ct)
  unsent : ∀ i c, w.calls.get i = some c → ∀ f ∈ w.frames, f.ctr ≠ place i
  nodup : (w.frames.map Sent.ctr).Nodup

section Invariant

variable {v : Session I} {ck : S.Key} {log : Log S} {n₀ n k : Nat} {c : Sending S} {w : Sender S I}
  {place : Nat → Nat} {header pt ct : Bytes}

theorem ctr_frameFor (v : Session I) (k : Nat) (ct pt : Bytes) :
    Sent.ctr ⟨encodeFrame (v.frameFor (encodeHeader (v.headerAt k)) ct), pt⟩ = k % 2 ^ 32 := by
  have hfits := v.headerAt_fits k
  have hslice : Bytes.slice (encodeFrame (v.frameFor (encodeHeader (v.headerAt k)) ct)) 2 (2 + HDR_LEN)
      = encodeHeader (v.headerAt k) :=
    Bytes.slice_mid [T_GMSG, VERSION] _ _ rfl (by rw [Session.frameFor, length_encodeHeader hfits])
  rw [Sent.ctr, hslice, decodeHeader_encodeHeader hfits]
  rfl

theorem LogAt.append {b b' : Box S.Key S.Nonce} (h : LogAt log n₀ k b) : LogAt (log ++ [b']) n₀ k b := by
  obtain ⟨hk, hb⟩ := h
  refine ⟨hk, ?_⟩
  rw [List.getElem?_append_left (List.getElem?_eq_some_iff.mp hb).1]
  exact hb

/-- A log that is one longer has the seal of one counter more. -/
theorem LogAt.of_append {b b' : Box S.Key S.Nonce} (h : LogAt (log ++ [b']) n₀ k b) :
    LogAt log n₀ k b ∨ k = n₀ + log.length ∧ b = b' := by
  obtain ⟨hk, hb⟩ := h
  rcases Nat.lt_or_ge (k - n₀) log.length with hlt | hge
  · rw [List.getElem?_append_left hlt] at hb
    exact Or.inl ⟨hk, hb⟩
  · rw [List.getElem?_append_right hge, List.getElem?_singleton] at hb
    split at hb
    · exact Or.inr ⟨by omega, (Option.some.inj hb).symm⟩
    · cases hb

theorem logAt_concat {b : Box S.Key S.Nonce} (hn : n₀ + log.length = n) : LogAt (log ++ [b]) n₀ n b := by
  have hlen : n - n₀ = log.length := by omega
  refine ⟨by omega, ?_⟩
  rw [hlen, List.getElem?_concat_length]

theorem CallAt.active (h : CallAt v ck n₀ log n k c) (hc : c.holdsChain = true) : k = n := by
  cases h with
  | keyed => rfl
  | encrypting => rfl
  | stepping => rfl
  | tagging => cases hc

theorem CallAt.moved (h : CallAt v ck n₀ log n k c) (hc : c.holdsChain = false) :
    k < n ∧ ∃ header pt ct, c = .tagging header pt ct ∧ SealedAt v log n₀ k header pt ct := by
  cases h with
  | tagging hk hs => exact ⟨hk, _, _, _, rfl, hs⟩
  | keyed => cases hc
  | encrypting => cases hc
  | stepping => cases hc

namespace Sender.Inv

theorem start (v : Session I) (ck : S.Key) (n₀ : Nat) : Inv ck n₀ place (start v ⟨S.chain.chainAt ck n₀, n₀⟩) where
  key := rfl
  log k b h := by cases h.2
  quiet _ := rfl
  call i c h := by cases h
  apart i j c d h := by cases h
  frame f h := by cases h
  unsent i c h := by cases h
  nodup := List.nodup_nil

/-- While one call holds the chain the others wait for their MACs. -/
theorem others (h : Inv ck n₀ place w) {i j : Nat} {d : Sending S} (hi : w.calls.get i = some c)
    (hc : c.holdsChain = true) (hj : w.calls.get j = some d) (hne : j ≠ i) : d.holdsChain = false := by
  cases hd : d.holdsChain with
  | false => rfl
  | true =>
      have hpi := (h.call i c hi).active hc
      have hpj := (h.call j d hj).active hd
      exact absurd (h.apart j i d c hj hi (hpj.trans hpi.symm)) hne

theorem send (h : Inv ck n₀ place w) {id : Nat} (hq : ∀ e ∈ w.calls.entries, e.2.holdsChain = false)
    (hn : w.chain.n < 2 ^ 32) : ∃ place, Inv ck n₀ place (w.send id pt) := by
  unfold Sender.send
  cases hg : w.calls.get id with
  | some c => exact ⟨place, h⟩
  | none =>
      have hquiet : ∀ i c, w.calls.get i = some c → c.holdsChain = false := by
        intro i c hi
        exact hq (i, c) (OrdMap.get_eq_some.mp hi)
      have hold : ∀ i c, w.calls.get i = some c → i ≠ id ∧ place i < w.chain.n := by
        intro i c hi
        refine ⟨?_, ((h.call i c hi).moved (hquiet i c hi)).1⟩
        rintro rfl
        rw [hg] at hi
        cases hi
      refine ⟨Function.update place id w.chain.n, ?_⟩
      exact {
        key := h.key
        log := h.log
        quiet := fun _ => h.quiet hquiet
        call := by
          intro i c hi
          obtain ⟨rfl, rfl⟩ | ⟨hne, hi⟩ := OrdMap.get_set_some hi
          · rw [Function.update_self, h.key]
            exact .keyed hn (h.quiet hquiet)
          · rw [Function.update_of_ne hne]
            exact h.call i c hi
        apart := by
          intro i j c d hi hj hp
          obtain ⟨hi', -⟩ | ⟨hi', hig⟩ := OrdMap.get_set_some hi
          · obtain ⟨hj', -⟩ | ⟨hj', hjg⟩ := OrdMap.get_set_some hj
            · rw [hi', hj']
            · rw [hi', Function.update_self, Function.update_of_ne hj'] at hp
              exact absurd hp.symm (Nat.ne_of_lt (hold j d hjg).2)
          · obtain ⟨hj', -⟩ | ⟨hj', hjg⟩ := OrdMap.get_set_some hj
            · rw [hj', Function.update_self, Function.update_of_ne hi'] at hp
              exact absurd hp (Nat.ne_of_lt (hold i c hig).2)
            · rw [Function.update_of_ne hi', Function.update_of_ne hj'] at hp
              exact h.apart i j c d hig hjg hp
        frame := h.frame
        unsent := by
          intro i c hi f hf
          obtain ⟨rfl, -⟩ | ⟨hne, hi⟩ := OrdMap.get_set_some hi
          · rw [Function.update_self]
            exact Nat.ne_of_lt (h.frame f hf).1
          · rw [Function.update_of_ne hne]
            exact h.unsent i c hi f hf
        nodup := h.nodup }

/-- A call goes on at its own counter, and the chain and the log do not go back. -/
theorem goOn (h : Inv ck n₀ place w) {id : Nat} {c' : Sending S} (hg : w.calls.get id = some c) {chain : SendChain S}
    {log : Log S} (hkey : chain.key = S.chain.chainAt ck chain.n)
    (hlog : ∀ k b, LogAt log n₀ k b → b = boxAt w.session ck k b.pt) (hn : w.chain.n ≤ chain.n)
    (hpre : ∀ k b, LogAt w.log n₀ k b → LogAt log n₀ k b)
    (hquiet : c'.holdsChain = false → n₀ + log.length = chain.n)
    (hc' : CallAt w.session ck n₀ log chain.n (place id) c')
    (hd : ∀ j d, w.calls.get j = some d → j ≠ id → d.holdsChain = false) :
    Inv ck n₀ place { w with chain, log, calls := w.calls.set id c' } where
  key := hkey
  log := hlog
  quiet hq := hquiet (hq id c' (OrdMap.get_set_self ..))
  call := by
    intro i d hi
    obtain ⟨rfl, rfl⟩ | ⟨hne, hi⟩ := OrdMap.get_set_some hi
    · exact hc'
    · obtain ⟨hk, header, pt, ct, rfl, hfit, hh, b, hb, hbox⟩ := (h.call i d hi).moved (hd i d hi hne)
      exact .tagging (Nat.lt_of_lt_of_le hk hn) ⟨hfit, hh, b, hpre _ b hb, hbox⟩
  apart := by
    intro i j a b hi hj hp
    have hsome : ∀ i d, (w.calls.set id c').get i = some d → ∃ d, w.calls.get i = some d := by
      intro i d hi
      obtain ⟨rfl, -⟩ | ⟨-, hi⟩ := OrdMap.get_set_some hi
      · exact ⟨c, hg⟩
      · exact ⟨d, hi⟩
    obtain ⟨a', ha⟩ := hsome i a hi
    obtain ⟨b', hb⟩ := hsome j b hj
    exact h.apart i j a' b' ha hb hp
  frame := by
    intro f hf
    obtain ⟨hk, hfit, b, hb, hbox⟩ := h.frame f hf
    exact ⟨Nat.lt_of_lt_of_le hk hn, hfit, b, hpre _ b hb, hbox⟩
  unsent := by
    intro i d hi f hf
    obtain ⟨rfl, -⟩ | ⟨-, hi⟩ := OrdMap.get_set_some hi
    · exact h.unsent i c hg f hf
    · exact h.unsent i d hi f hf
  nodup := h.nodup

theorem resume (h : Inv ck n₀ place w) (id : Nat) : Inv ck n₀ place (w.resume id) := by
  unfold Sender.resume
  cases hg : w.calls.get id with
  | none => exact h
  | some c =>
      have hcall := h.call id c hg
      cases c with
      | keyed header pt key =>
          have hothers := fun j d => h.others (j := j) (d := d) hg rfl
          generalize hp : place id = k at hcall
          cases hcall with
          | keyed hn hlen =>
              refine h.goOn hg h.key ?_ (Nat.le_refl _) (fun k b hb => hb.append) ?_ ?_ hothers
              · intro k b hb
                obtain hb | ⟨hk, rfl⟩ := hb.of_append
                · exact h.log k b hb
                · rw [hk, hlen]
                  rfl
              · intro hc
                cases hc
              · rw [hp]
                have hlen' : n₀ + (w.log ++ [aeadBox (S.chain.keyAt ck w.chain.n) w.chain.n
                    (encodeHeader (w.session.headerAt w.chain.n)) pt]).length = w.chain.n + 1 := by
                  rw [List.length_append, ← Nat.add_assoc, hlen, List.length_singleton]
                exact .encrypting hlen' ⟨hn, rfl, _, logAt_concat hlen, rfl, rfl⟩
      | encrypting header pt ct =>
          have hothers := fun j d => h.others (j := j) (d := d) hg rfl
          generalize hp : place id = k at hcall
          cases hcall with
          | encrypting hlen hs =>
              refine h.goOn hg h.key h.log (Nat.le_refl _) (fun _ _ hb => hb) ?_ ?_ hothers
              · intro hc
                cases hc
              · rw [hp, h.key, ← KeyChain.chainAt_succ]
                exact .stepping hlen hs
      | stepping header pt ct next =>
          have hothers := fun j d => h.others (j := j) (d := d) hg rfl
          generalize hp : place id = k at hcall
          cases hcall with
          | stepping hlen hs =>
              refine h.goOn hg rfl h.log (Nat.le_succ _) (fun _ _ hb => hb) (fun _ => hlen) ?_ hothers
              rw [hp]
              exact .tagging (Nat.lt_succ_self _) hs
      | tagging header pt ct =>
          obtain ⟨hk, header', pt', ct', he, hfit, hh, b, hb, hpt, hct⟩ := hcall.moved rfl
          cases he
          have hctr : Sent.ctr ⟨encodeFrame (w.session.frameFor header ct), pt⟩ = place id := by
            rw [hh, ctr_frameFor, Nat.mod_eq_of_lt hfit]
          exact {
            key := h.key
            log := h.log
            quiet := by
              intro hq
              apply h.quiet
              intro i c hi
              by_cases he : i = id
              · rw [he, hg] at hi
                cases hi
                rfl
              · exact hq i c (by rw [OrdMap.get_delete_ne _ he, hi])
            call := fun i c hi => h.call i c (OrdMap.get_delete_some hi).2
            apart := fun i j c d hi hj => h.apart i j c d (OrdMap.get_delete_some hi).2 (OrdMap.get_delete_some hj).2
            frame := by
              intro f hf
              obtain rfl | hf := List.mem_cons.mp hf
              · rw [hctr]
                exact ⟨hk, hfit, b, hb, hpt, by rw [hh, hct]⟩
              · exact h.frame f hf
            unsent := by
              intro i c hi f hf
              obtain ⟨hne, hi⟩ := OrdMap.get_delete_some hi
              obtain rfl | hf := List.mem_cons.mp hf
              · rw [hctr]
                intro he
                exact hne (h.apart i id c _ hi hg he.symm)
              · exact h.unsent i c hi f hf
            nodup := by
              rw [List.map_cons, List.nodup_cons, hctr]
              refine ⟨?_, h.nodup⟩
              intro hm
              obtain ⟨f, hf, hfc⟩ := List.mem_map.mp hm
              exact h.unsent id _ hg f hf hfc }

theorem reach (h : Reach act OneAtATime (Sender.start v ⟨S.chain.chainAt ck n₀, n₀⟩) w) :
    ∃ place, Inv ck n₀ place w := by
  refine h.invariant (I := fun w => ∃ place, Inv ck n₀ place w) ⟨id, start v ck n₀⟩ ?_
  intro w a hw hok
  obtain ⟨place, hw⟩ := hw
  cases a with
  | send id pt => exact hw.send hok.1 hok.2
  | resume id => exact ⟨place, hw.resume id⟩

end Sender.Inv

end Invariant

/-! ## No key twice -/

variable {w : Sender S I} {ck : S.Key} {n₀ : Nat} {chain : SendChain S}

/-- A receiver that was given the initial chain, whatever it has been handed since. -/
def Follows (o : ReceiverOpts) (chain : SendChain S) (r : SenderReceiver S) : Prop :=
  ∃ calls : List (Open S × Time × Time × Nat × Bytes × Bytes),
    r = calls.foldl (fun r (opens, t, t', n, header, ct) => (r.openAt o opens t t' n header ct).1)
      (.make chain.key chain.n)

theorem Follows.tracks {o : ReceiverOpts} {r : SenderReceiver S} (h : Follows o ⟨S.chain.chainAt ck n₀, n₀⟩ r) :
    r.Tracks ck := by
  obtain ⟨calls, rfl⟩ := h
  have hall : ∀ r : SenderReceiver S, r.Tracks ck → (calls.foldl
      (fun r (opens, t, t', n, header, ct) => (r.openAt o opens t t' n header ct).1) r).Tracks ck := by
    induction calls with
    | nil => exact fun r hr => hr
    | cons call calls ih => exact fun r hr => ih _ (hr.openAt ..)
  exact hall _ (.make n₀)

/-- The frame goes to every other member under its own counter, was sealed with that counter's key and
nonce, and opens for all who can still reach the counter. -/
structure Sender.Carries (w : Sender S I) (ck : S.Key) (chain : SendChain S) (f : Sent) (b : Box S.Key S.Nonce) : Prop where
  key : b.key = S.chain.keyAt ck f.ctr
  nonce : b.nonce = S.aeadNonce b.key (Bytes.u32be f.ctr)
  pt : b.pt = f.pt
  accepted : ∀ v : Session I, Session.SameGroup w.session v → v.me ∈ w.session.members → w.session.me ≠ v.me →
    v.accept f.frame = some ⟨w.session.me, b.aad, b.ct⟩
  ctr : (decodeHeader b.aad).ctr = f.ctr
  opens : ∀ (o : ReceiverOpts) r t t', Follows o chain r → r.Openable o t f.ctr →
    (r.openAt o (Box.openIn w.log) t t' f.ctr b.aad b.ct).2 = .ok f.pt

/-- What sending promises at every moment of a run. -/
structure Sender.Sound (w : Sender S I) (ck : S.Key) (chain : SendChain S) : Prop where
  counters : (w.frames.map Sent.ctr).Nodup
  keys : (w.log.map fun b => (b.key, b.nonce)).Nodup
  carries : ∀ f ∈ w.frames, ∃ b ∈ w.log, w.Carries ck chain f b

theorem Sender.Inv.nodup_keys {place : Nat → Nat} (h : Sender.Inv ck n₀ place w) {Start : S.Key → Prop}
    (hS : S.chain.Ideal Start) (hck : Start ck) : (w.log.map fun b => (b.key, b.nonce)).Nodup := by
  have hkeys : (w.log.map Box.key).Nodup := by
    refine hS.nodup_keys hck (n := n₀) fun i k hk => ?_
    rw [List.getElem?_map] at hk
    obtain ⟨b, hb, rfl⟩ := Option.map_eq_some_iff.mp hk
    rw [h.log (n₀ + i) b ⟨Nat.le_add_right .., by rw [Nat.add_sub_cancel_left, hb]⟩]
    rfl
  apply List.Nodup.of_map Prod.fst
  rwa [List.map_map]

theorem Sender.session_reach {ok : Sender S I → SendAct → Prop} {v : Session I}
    (h : Reach Sender.act ok (Sender.start v chain) w) : w.session = v := by
  refine h.invariant (I := fun w => w.session = v) rfl ?_
  intro w a hw _
  cases a with
  | send id pt =>
      simp only [Sender.act, Sender.send]
      split <;> exact hw
  | resume id =>
      simp only [Sender.act, Sender.resume]
      split <;> exact hw

/-- Where no call of `send` starts before the one under way has moved the chain, no key seals twice. -/
theorem send_sound {Start : S.Key → Prop} (hS : S.chain.Ideal Start) (hck : Start ck) (hI : I.Symmetric)
    {v : Session I} (hid : v.IdsDistinct) (hme : v.me ∈ v.members)
    (hcount : (v.members.filter fun m => decide (m ≠ v.me)).length < 256)
    (hchain : chain = ⟨S.chain.chainAt ck n₀, n₀⟩)
    (h : Reach Sender.act Sender.OneAtATime (Sender.start v chain) w) : w.Sound ck chain := by
  subst hchain
  obtain ⟨place, hi⟩ := Sender.Inv.reach h
  have hv := Sender.session_reach h
  have hkeys := hi.nodup_keys hS hck
  refine ⟨hi.nodup, hkeys, ?_⟩
  intro f hf
  obtain ⟨hk, hfit, b, hb, hpt, hframe⟩ := hi.frame f hf
  have hbox := hi.log f.ctr b hb
  have hmem : b ∈ w.log := List.mem_of_getElem? hb.2
  have hopen := Box.openIn_sealed hkeys hmem
  refine ⟨b, hmem, ?_⟩
  have hkey : b.key = S.chain.keyAt ck f.ctr := by rw [hbox]; rfl
  have hnonce : b.nonce = S.aeadNonce b.key (Bytes.u32be f.ctr) := by rw [hkey, hbox]; rfl
  have haad : b.aad = encodeHeader (w.session.headerAt f.ctr) := by rw [hbox]; rfl
  have hctr : (decodeHeader b.aad).ctr = f.ctr := by
    rw [haad, decodeHeader_encodeHeader (w.session.headerAt_fits f.ctr)]
    exact Nat.mod_eq_of_lt hfit
  refine ⟨hkey, hnonce, hpt, ?_, hctr, ?_⟩
  · intro u hu hmem hne
    rw [hv] at hu hmem hne haad hframe ⊢
    rw [hframe, Session.accept_frameFor hI hu hid hme hmem hne hcount, haad]
  · intro o r t t' hr ho
    apply SenderReceiver.openAt_ok hr.tracks ho
    rw [← hpt, ← hkey, ← hnonce]
    exact hopen

/-! ## Two calls at once -/

namespace Symbolic

/-- The secret that member 1's chain starts from. -/
def seed : suite.Key := Key.secret 0

def pair : Session identities where
  me := (1 : UInt8)
  gid := List.replicate 16 7
  epoch := 1
  members := [(1 : UInt8), (2 : UInt8)]
  length_gid := rfl

def play (as : List SendAct) : Sender suite identities := as.foldl Sender.act (.start pair (newSendChain seed))

/-- Both calls read the chain before either moves it. -/
def overlapping : List SendAct :=
  [.send 0 [10], .send 1 [20], .resume 0, .resume 1, .resume 0, .resume 1, .resume 0, .resume 1, .resume 0, .resume 1]

/-- The second call starts while the first makes its MACs. -/
def following : List SendAct :=
  [.send 0 [10], .resume 0, .resume 0, .resume 0, .send 1 [20], .resume 1, .resume 1, .resume 1, .resume 1, .resume 0]

/-- Counter 0 goes out twice, and its key and nonce seal both plaintexts. -/
theorem overlapping_reuse : ∃ w : Sender suite identities,
    Reach Sender.act (fun _ _ => True) (Sender.start pair (newSendChain seed)) w ∧ ¬w.Sound seed (newSendChain seed) := by
  have hadm : Admits Sender.act (fun _ _ => True) (Sender.start pair (newSendChain seed) : Sender suite identities)
      overlapping := by simp [Admits, overlapping]
  refine ⟨play overlapping, hadm.reach .start, ?_⟩
  intro h
  have hdup : ¬((play overlapping).frames.map Sent.ctr).Nodup := by decide
  exact hdup h.counters

theorem following_sound : (play following).Sound seed (newSendChain seed) ∧ (play following).frames.length = 2 := by
  have hadm : Admits Sender.act Sender.OneAtATime (Sender.start pair (newSendChain seed) : Sender suite identities)
      following := by decide
  have hchain : newSendChain seed = ⟨suite.chain.chainAt seed 0, 0⟩ := rfl
  have hid : pair.IdsDistinct := by
    intro a ha b hb he
    exact (List.cons.inj he).1
  exact ⟨send_sound ideal ⟨0, rfl⟩ symmetric hid (by decide) (by decide) hchain (hadm.reach .start), by decide⟩

end Symbolic

end EncedoChat.Group
