import Mathlib.Data.List.ReduceOption
import EncedoChat.Eh2.Skipped

/-!
# The header and the skipped-key store of the Rust core

`encode_header`, `decode_header` and `Skipped` of `core-rs/src/ratchet.rs`, and that they are those of
`eh2/ratchet.ts`. A `u32` is a number the code reduces where it computes: the release profile leaves
overflow checks off.
-/

namespace EncedoChat.Core

open EncedoChat.Eh2 (Header Pub T_DATA T_DATA_PQ VERSION HDR_LEN PQ_CT PQ_PUB Time SkippedKeys)

/-- What a `u32` keeps of a number. -/
def u32 (n : Nat) : Nat := n % 2 ^ 32

theorem u32_lt (n : Nat) : u32 n < 2 ^ 32 := Nat.mod_lt _ (Nat.two_pow_pos 32)

theorem u32_of_lt {n : Nat} (h : n < 2 ^ 32) : u32 n = n := Nat.mod_eq_of_lt h

theorem u32_add_one (n : Nat) : u32 (u32 n + 1) = u32 (n + 1) := Nat.mod_add_mod n _ 1

theorem u32_eq_self {n : Nat} : u32 n = n ↔ n < 2 ^ 32 := ⟨fun h => h ▸ u32_lt n, u32_of_lt⟩

theorem u32be_u32 (n : Nat) : Bytes.u32be (u32 n) = Bytes.u32be n := by
  have h : Bytes.toNat (Bytes.u32be n) = u32 n := Bytes.toNat_u32be n
  rw [← h]
  exact Bytes.ofNat_toNat (Bytes.length_u32be n)

/-! ## The header -/

def encodeHeader (h : Header) : Bytes :=
  let pq := h.pqCt.isSome || h.pqPub.isSome
  [if pq then T_DATA_PQ else T_DATA, VERSION] ++ h.dhPub.1 ++ Bytes.u32be h.pn ++ Bytes.u32be h.n ++
    if pq then
      ((if h.pqCt.isSome then PQ_CT else 0) ||| (if h.pqPub.isSome then PQ_PUB else 0)) ::
        [h.pqCt, h.pqPub].reduceOption.flatMap fun f => Bytes.u16be f.length ++ f
    else []

/-- One turn of the field loop. -/
def readField (frame : Bytes) (flags : UInt8) : Header × Nat → UInt8 → Option (Header × Nat)
  | (h, o), which =>
    if flags &&& which = 0 then some (h, o)
    else if o + 2 > frame.length then none
    else
      let len := Bytes.getU16 frame o
      let o := o + 2
      if len = 0 ∨ o + len > frame.length then none
      else
        let field := Bytes.slice frame o (o + len)
        some (if which = PQ_CT then { h with pqCt := some field } else { h with pqPub := some field }, o + len)

def decodeHeader (frame : Bytes) : Option (Header × Nat) :=
  if hlen : frame.length < HDR_LEN + 16 ∨ frame.getD 1 0 ≠ VERSION then none
  else
    let dhPub : Pub := ⟨Bytes.slice frame 2 34, Bytes.length_slice _ (by decide)
      (by simp only [HDR_LEN, not_or] at hlen; omega)⟩
    let h : Header := ⟨dhPub, Bytes.getU32 frame 34, Bytes.getU32 frame 38, none, none⟩
    if frame.getD 0 0 = T_DATA then some (h, HDR_LEN)
    else if frame.getD 0 0 ≠ T_DATA_PQ then none
    else
      let flags := frame.getD 42 0
      if flags = 0 ∨ flags &&& ~~~(PQ_CT ||| PQ_PUB) ≠ 0 then none
      else
        match [PQ_CT, PQ_PUB].foldlM (readField frame flags) (h, 43) with
        | none => none
        | some (h, o) => if frame.length < o + 16 then none else some (h, o)

theorem encodeHeader_eq (h : Header) : encodeHeader h = Eh2.encodeHeader h := by
  cases hc : h.pqCt <;> cases hp : h.pqPub <;>
    simp [encodeHeader, Eh2.encodeHeader, Eh2.encodeFlags, Eh2.encodeField, hc, hp]

/-- The counters are truncated as they are written. -/
theorem encodeHeader_u32 (h : Header) :
    encodeHeader { h with pn := u32 h.pn, n := u32 h.n } = Eh2.encodeHeader h := by
  rw [encodeHeader_eq]
  simp only [Eh2.encodeHeader, u32be_u32, Eh2.encodeFlags]

/-- One turn of the loop reads the field `decodeField` reads, and files it. -/
theorem readField_eq (frame : Bytes) (flags which : UInt8) (h : Header) (o : Nat) :
    readField frame flags (h, o) which = (Eh2.decodeField frame flags which o).map fun fo =>
      (match fo.1 with
        | none => h
        | some f => if which = PQ_CT then { h with pqCt := some f } else { h with pqPub := some f }, fo.2) := by
  simp only [readField, Eh2.decodeField]
  by_cases hf : flags &&& which = 0
  · simp only [if_pos hf, Option.map_some]
  simp only [if_neg hf]
  by_cases ho : o + 2 > frame.length
  · simp only [if_pos ho, Option.map_none]
  simp only [if_neg ho]
  split <;> rfl

theorem decodeHeader_eq (frame : Bytes) : decodeHeader frame = Eh2.decodeHeader frame := by
  unfold decodeHeader Eh2.decodeHeader
  by_cases hlen : frame.length < HDR_LEN + 16
  · rw [dif_pos (Or.inl hlen), dif_pos hlen]
  by_cases hver : frame.getD 1 0 ≠ VERSION
  · rw [dif_pos (Or.inr hver), dif_neg hlen, if_pos hver]
  rw [dif_neg (not_or.mpr ⟨hlen, hver⟩), dif_neg hlen, if_neg hver]
  dsimp only
  split
  · rfl
  split
  · rfl
  split
  · rfl
  -- the two fields, the ciphertext first
  simp only [List.foldlM_cons, List.foldlM_nil, readField_eq]
  cases hc : Eh2.decodeField frame (frame.getD 42 0) PQ_CT 43 with
  | none => rfl
  | some co =>
      obtain ⟨c, o⟩ := co
      have hne : ¬PQ_PUB = PQ_CT := by decide
      simp only [Option.map_some, Option.bind_eq_bind, Option.bind_some, readField_eq]
      cases hp : Eh2.decodeField frame (frame.getD 42 0) PQ_PUB o with
      | none => rfl
      | some po =>
          obtain ⟨p, o'⟩ := po
          cases c <;> cases p <;> simp [hne]

theorem getU32_lt (b : Bytes) (o : Nat) (h : o + 4 ≤ b.length) : Bytes.getU32 b o < 2 ^ 32 := by
  have hl : (Bytes.slice b o (o + 4)).length = 4 := by
    rw [Bytes.length_slice b (by omega) h]; omega
  have he := Bytes.toNat_ofNat 4 (Bytes.toNat (Bytes.slice b o (o + 4)))
  rw [Bytes.ofNat_toNat hl] at he
  rw [Bytes.getU32, he]
  exact Nat.mod_lt _ (by norm_num)

/-- The counters of a decoded header are `u32`s. -/
theorem decodeHeader_counters {frame : Bytes} {h : Header} {len : Nat}
    (hd : Eh2.decodeHeader frame = some (h, len)) : h.n < 2 ^ 32 ∧ h.pn < 2 ^ 32 := by
  unfold Eh2.decodeHeader at hd
  split at hd
  · cases hd
  rename_i hlen
  simp only [HDR_LEN, Nat.not_lt] at hlen
  have hn := getU32_lt frame 38 (by omega)
  have hpn := getU32_lt frame 34 (by omega)
  split at hd
  · cases hd
  dsimp only at hd
  split at hd
  · cases hd; exact ⟨hn, hpn⟩
  split at hd
  · cases hd
  split at hd
  · cases hd
  split at hd
  · cases hd
  split at hd
  · cases hd
  split at hd
  · cases hd
  · cases hd; exact ⟨hn, hpn⟩

/-! ## The store -/

/-- Message keys set aside, the oldest chain first. Of the inner `BTreeMap` nothing but its lookups and
its size is read. -/
structure Skipped (K : Type) where
  chains : List (Pub × OrdMap Nat (K × Nat))

namespace Skipped

variable {K : Type}

def position (s : Skipped K) (dhPub : Pub) : Option Nat := s.chains.findIdx? fun c => c.1 = dhPub

/-- `while self.chains.len() > self.max_chains { self.chains.remove(0); }` -/
def evict (maxChains : Nat) : List (Pub × OrdMap Nat (K × Nat)) → List (Pub × OrdMap Nat (K × Nat))
  | [] => []
  | c :: cs => if (c :: cs).length > maxChains then evict maxChains cs else c :: cs

/-- `self.chains[idx].1.insert(n, (mk, now))` -/
def insertAt (chains : List (Pub × OrdMap Nat (K × Nat))) (idx n : Nat) (mk : K) (now : Nat) :
    List (Pub × OrdMap Nat (K × Nat)) :=
  chains.modify idx fun c => (c.1, c.2.set n (mk, now))

/-- `none` when the index is out of bounds: the chain just pushed was evicted again. -/
def put (maxChains : Nat) (s : Skipped K) (dhPub : Pub) (n : Nat) (mk : K) (now : Nat) : Option (Skipped K) :=
  match s.position dhPub with
  | some idx => some ⟨insertAt s.chains idx n mk now⟩
  | none =>
    let chains := evict maxChains (s.chains ++ [(dhPub, .empty)])
    if chains.length = 0 then none else some ⟨insertAt chains (chains.length - 1) n mk now⟩

def peek (s : Skipped K) (dhPub : Pub) (n : Nat) : Option K :=
  ((s.chains.find? fun c => c.1 = dhPub).bind fun c => c.2.get n).map Prod.fst

def dropKey (s : Skipped K) (dhPub : Pub) (n : Nat) : Skipped K :=
  match s.position dhPub with
  | none => s
  | some idx =>
    let chains := s.chains.modify idx fun c => (c.1, c.2.delete n)
    match chains[idx]? with
    | some c => if c.2.size = 0 then ⟨chains.eraseIdx idx⟩ else ⟨chains⟩
    | none => ⟨chains⟩

/-- `now.saturating_sub(ts)` is the subtraction of numbers. -/
def prune (ttlMs : Nat) (s : Skipped K) (now : Nat) : Skipped K :=
  ⟨(s.chains.map fun c => (c.1, c.2.filter fun _ e => decide (now - e.2 ≤ ttlMs))).filter fun c => c.2.size != 0⟩

def size (s : Skipped K) : Nat := (s.chains.map fun c => c.2.size).sum

/-- The keys a walk passed over, put from message `start` on. -/
def putAll (maxChains : Nat) (dhPub : Pub) (start now : Nat) :
    Skipped K → Nat → List K → Option (Skipped K)
  | s, _, [] => some s
  | s, i, k :: ks =>
    match s.put maxChains dhPub (u32 (start + i)) k now with
    | none => none
    | some s => putAll maxChains dhPub start now s (i + 1) ks

/-! ## The two stores hold the same -/

/-- A chain as the other store keeps it. -/
def view (c : Pub × OrdMap Nat (K × Nat)) : Pub × OrdMap Nat (Eh2.Skipped K) :=
  (c.1, c.2.map fun _ e => ⟨e.1, e.2⟩)

def Same (r : Skipped K) (s : SkippedKeys K) : Prop := s.chains.entries = r.chains.map view

variable {r : Skipped K} {s : SkippedKeys K} {maxChains : Nat}

theorem find?_view (cs : List (Pub × OrdMap Nat (K × Nat))) (p : Pub) :
    (cs.map view).find? (fun e => e.1 = p) = (cs.find? fun c => c.1 = p).map view := by
  rw [List.find?_map]
  rfl

theorem Same.get (h : Same r s) (p : Pub) :
    s.chains.get p = (r.chains.find? fun c => c.1 = p).map fun c => (view c).2 := by
  rw [OrdMap.get, h, find?_view, Option.map_map]
  rfl

theorem Same.peek (h : Same r s) (p : Pub) (n : Nat) : r.peek p n = s.peek p n := by
  rw [SkippedKeys.peek, SkippedKeys.entry, h.get, Skipped.peek]
  cases r.chains.find? fun c => c.1 = p with
  | none => rfl
  | some c =>
      simp only [Option.map_some, Option.bind_some, view, OrdMap.get_map, Option.map_map]
      rfl

theorem Same.size (h : Same r s) : r.size = s.size := by
  rw [SkippedKeys.size, h, List.map_map, Skipped.size]
  congr 1
  apply List.map_congr_left
  intro c _
  simp [view]

/-- Subtraction that stops at zero keeps the entries the other keeps: a key set aside after `now` is
young either way. -/
theorem filter_view (ttl now : Nat) (c : Pub × OrdMap Nat (K × Nat)) :
    ((view c).2.filter fun _ e => !decide ((now : Time) - e.ts > ttl))
      = (view (c.1, c.2.filter fun _ e => decide (now - e.2 ≤ ttl))).2 := by
  rw [view, OrdMap.filter_map]
  have hp : (fun (_ : Nat) (e : K × Nat) => !decide ((now : Time) - (e.2 : Time) > ttl))
      = fun _ e => decide (now - e.2 ≤ ttl) := by
    funext _ e
    have hle : ¬(now : Int) - (e.2 : Int) > ttl ↔ now - e.2 ≤ ttl := by omega
    rw [← decide_not, decide_eq_decide]
    exact hle
  rw [hp]
  rfl

theorem Same.prune {ttl now : Nat} (h : Same r s) : Same (r.prune ttl now) (s.prune ttl now) := by
  have hl : (s.prune ttl now).chains.entries = (s.chains.entries.map fun e =>
      (e.1, e.2.filter fun _ e => !decide ((now : Time) - e.ts > ttl))).filter fun e => e.2.size != 0 := rfl
  have hcomm : ((fun e : Pub × OrdMap Nat (Eh2.Skipped K) =>
        (e.1, e.2.filter fun _ e => !decide ((now : Time) - e.ts > ttl))) ∘ view)
      = view ∘ fun c => (c.1, c.2.filter fun _ e => decide (now - e.2 ≤ ttl)) := by
    funext c
    exact Prod.ext rfl (filter_view ttl now c)
  have hsize : ((fun e : Pub × OrdMap Nat (Eh2.Skipped K) => e.2.size != 0) ∘ view)
      = fun c => c.2.size != 0 := by
    funext c
    simp [view]
  rw [Same, hl, h, List.map_map, hcomm, ← List.map_map, List.filter_map, hsize]
  rfl

theorem position_some {p : Pub} {i : Nat} (h : r.position p = some i) :
    ∃ c, r.chains[i]? = some c ∧ c.1 = p ∧ r.chains.find? (fun c => c.1 = p) = some c := by
  obtain ⟨hi, hp, -⟩ := List.findIdx?_eq_some_iff_getElem.mp h
  refine ⟨r.chains[i], List.getElem?_eq_getElem hi, by simpa using hp, ?_⟩
  have hf : r.chains.findIdx? (fun c => c.1 = p) = some i := h
  rw [List.find?_eq_bind_findIdx?_getElem?, hf, Option.bind_some, List.getElem?_eq_getElem hi]

theorem position_none {p : Pub} : r.position p = none ↔ r.chains.find? (fun c => c.1 = p) = none := by
  simp [position]

/-- Replacing the value of a key is replacing it where the key stands. -/
theorem insertEntry_view {p : Pub} {v : OrdMap Nat (Eh2.Skipped K)}
    {g : Pub × OrdMap Nat (K × Nat) → Pub × OrdMap Nat (K × Nat)}
    {cs : List (Pub × OrdMap Nat (K × Nat))} {i : Nat} (hi : cs.findIdx? (fun c => c.1 = p) = some i)
    (hg : ∀ c, cs[i]? = some c → view (g c) = (p, v)) :
    OrdMap.insertEntry p v (cs.map view) = (cs.modify i g).map view := by
  induction cs generalizing i with
  | nil => simp at hi
  | cons c cs ih =>
      rw [List.findIdx?_cons] at hi
      by_cases hc : c.1 = p
      · simp only [hc, decide_true, if_true, Option.some.injEq] at hi
        subst hi
        have hv := hg c rfl
        have he : (view c).1 = p := hc
        rw [List.map_cons, OrdMap.insertEntry, if_pos he, List.modify_zero_cons, List.map_cons, hv]
      · simp only [hc, decide_false, Bool.false_eq_true, if_false, Option.map_eq_some_iff] at hi
        obtain ⟨j, hj, rfl⟩ := hi
        have hrest := ih hj fun c' hc' => hg c' (by simpa using hc')
        simp only [List.map_cons, OrdMap.insertEntry, List.modify_succ_cons]
        rw [if_neg (by simpa [view] using hc), hrest]

theorem evict_eq (cs : List (Pub × OrdMap Nat (K × Nat))) : evict maxChains cs = cs.drop (cs.length - maxChains) := by
  induction cs with
  | nil => simp [evict]
  | cons c cs ih =>
      rw [evict]
      split
      · rename_i h
        have hd : (c :: cs).length - maxChains = (cs.length - maxChains) + 1 := by
          simp only [List.length_cons] at h ⊢
          omega
        rw [ih, hd, List.drop_succ_cons]
      · rename_i h
        have hd : (c :: cs).length - maxChains = 0 := by omega
        rw [hd, List.drop_zero]

/-- The chain just pushed is the last one, and what is put goes there. -/
theorem insertEntry_last {p : Pub} {v : OrdMap Nat (Eh2.Skipped K)} {cs : List (Pub × OrdMap Nat (K × Nat))}
    {m : OrdMap Nat (K × Nat)} {g : Pub × OrdMap Nat (K × Nat) → Pub × OrdMap Nat (K × Nat)}
    (hnew : cs.find? (fun c => c.1 = p) = none) (hg : view (g (p, m)) = (p, v)) :
    OrdMap.insertEntry p v ((cs ++ [(p, m)]).map view) = ((cs ++ [(p, m)]).modify cs.length g).map view := by
  apply insertEntry_view
  · rw [List.findIdx?_append, List.findIdx?_eq_none_iff.mpr (by simpa using hnew)]
    simp
  · intro c hc
    simp only [List.getElem?_concat_length, Option.some.injEq] at hc
    rw [← hc, hg]

theorem Same.put (hmax : 0 < maxChains) (h : Same r s) (p : Pub) (n : Nat) (mk : K) (now : Nat) :
    ∃ r', r.put maxChains p n mk now = some r' ∧ Same r' (s.put maxChains p n mk now) := by
  rw [Skipped.put, SkippedKeys.put]
  cases hp : r.position p with
  | some i =>
      obtain ⟨c, hci, hc, hfind⟩ := position_some hp
      refine ⟨_, rfl, ?_⟩
      simp only [h.get, hfind, Option.map_some]
      show OrdMap.insertEntry p _ s.chains.entries = _
      rw [h]
      apply insertEntry_view hp
      intro c' hc'
      rw [hci, Option.some.injEq] at hc'
      subst hc'
      rw [view, hc, OrdMap.map_set]
      rfl
  | none =>
      have hfind := position_none.mp hp
      have hget : s.chains.get p = none := by rw [h.get, hfind]; rfl
      obtain ⟨d, hd⟩ : ∃ d, r.chains.length + 1 - maxChains = d ∧ d ≤ r.chains.length := ⟨_, rfl, by omega⟩
      have hev : evict maxChains (r.chains ++ [(p, OrdMap.empty)]) = r.chains.drop d ++ [(p, OrdMap.empty)] := by
        rw [evict_eq, List.length_append, List.length_singleton, hd.1, List.drop_append_of_le_length hd.2]
      have htrim : ((s.chains.set p OrdMap.empty).trim maxChains).entries
          = (r.chains.drop d ++ [(p, (OrdMap.empty : OrdMap Nat (K × Nat)))]).map view := by
        have hset : (s.chains.set p OrdMap.empty).entries
            = (r.chains ++ [(p, (OrdMap.empty : OrdMap Nat (K × Nat)))]).map view := by
          show OrdMap.insertEntry p _ s.chains.entries = _
          rw [OrdMap.insertEntry_new (OrdMap.get_eq_none.mp hget), h, List.map_append]
          rfl
        show List.drop _ _ = _
        rw [OrdMap.size, hset, List.length_map, List.length_append, List.length_singleton, hd.1, ← List.map_drop,
          List.drop_append_of_le_length hd.2]
      have hin : ((s.chains.set p OrdMap.empty).trim maxChains).has p = true := by
        simp [OrdMap.has, OrdMap.get_trim_set_new hmax hget]
      simp only [hget, hin, if_true, hev]
      rw [if_neg (by simp)]
      refine ⟨_, rfl, ?_⟩
      show OrdMap.insertEntry p _ _ = _
      have hlast : (r.chains.drop d ++ [(p, (OrdMap.empty : OrdMap Nat (K × Nat)))]).length - 1
          = (r.chains.drop d).length := by simp
      rw [htrim, insertAt, hlast]
      apply insertEntry_last
      · rw [List.find?_eq_none] at hfind ⊢
        exact fun c hc => hfind c (List.mem_of_mem_drop hc)
      · rfl

/-- With each key once, dropping a key's entry is dropping the entry at its place. -/
theorem filter_ne_eraseIdx {cs : List (Pub × OrdMap Nat (K × Nat))} {p : Pub} {i : Nat}
    (hi : cs.findIdx? (fun c => c.1 = p) = some i) (hnd : (cs.map Prod.fst).Nodup) :
    cs.filter (fun c => c.1 ≠ p) = cs.eraseIdx i := by
  induction cs generalizing i with
  | nil => simp at hi
  | cons c cs ih =>
      rw [List.map_cons, List.nodup_cons] at hnd
      rw [List.findIdx?_cons] at hi
      by_cases hc : c.1 = p
      · simp only [hc, decide_true, if_true, Option.some.injEq] at hi
        subst hi
        rw [List.filter_cons_of_neg (by simp [hc]), List.eraseIdx_zero, List.tail_cons, List.filter_eq_self]
        intro e he
        have hne : e.1 ≠ p := fun hep => hnd.1 (hc ▸ hep ▸ List.mem_map_of_mem he)
        simpa using hne
      · simp only [hc, decide_false, Bool.false_eq_true, if_false, Option.map_eq_some_iff] at hi
        obtain ⟨j, hj, rfl⟩ := hi
        rw [List.filter_cons_of_pos (by simp [hc]), ih hj hnd.2, List.eraseIdx_cons_succ]

theorem Same.nodup (h : Same r s) : (r.chains.map Prod.fst).Nodup := by
  have hk := s.chains.nodup
  rw [h, List.map_map] at hk
  exact hk

theorem Same.dropKey (h : Same r s) (p : Pub) (n : Nat) : Same (r.dropKey p n) (s.drop p n) := by
  rw [Skipped.dropKey, SkippedKeys.drop]
  cases hp : r.position p with
  | none =>
      have hget : s.chains.get p = none := by rw [h.get, position_none.mp hp]; rfl
      rw [hget]
      exact h
  | some i =>
      obtain ⟨c, hci, hc, hfind⟩ := position_some hp
      have hdel : ((view c).2.delete n) = (view (c.1, c.2.delete n)).2 := (OrdMap.map_delete ..).symm
      have hat : (r.chains.modify i fun c => (c.1, c.2.delete n))[i]? = some (c.1, c.2.delete n) := by
        rw [List.getElem?_modify_eq, hci]
        rfl
      have hz : (view (c.1, c.2.delete n)).2.size = (c.2.delete n).size := OrdMap.size_map ..
      simp only [h.get, hfind, Option.map_some, hat, hdel, hz]
      by_cases he : (c.2.delete n).size = 0
      · simp only [he, if_true]
        show List.filter _ s.chains.entries = _
        rw [h, List.filter_map, List.eraseIdx_modify_of_eq, ← filter_ne_eraseIdx hp h.nodup]
        rfl
      · simp only [he, if_false]
        show OrdMap.insertEntry p _ s.chains.entries = _
        rw [h]
        apply insertEntry_view hp
        intro c' hc'
        rw [hci, Option.some.injEq] at hc'
        subst hc'
        rw [← hc]
        rfl

theorem Same.putAll (hmax : 0 < maxChains) (p : Pub) (start now : Nat) {ks : List K} {i : Nat}
    (h : Same r s) (hlt : start + i + ks.length ≤ 2 ^ 32) :
    ∃ r', putAll maxChains p start now r i ks = some r' ∧
      Same r' (SkippedKeys.putAll maxChains p (fun _ => now) s (start + i) ks) := by
  induction ks generalizing r s i with
  | nil => exact ⟨r, rfl, h⟩
  | cons k ks ih =>
      rw [List.length_cons] at hlt
      have hi : u32 (start + i) = start + i := u32_of_lt (by omega)
      obtain ⟨r₁, hput, hsame⟩ := h.put hmax p (start + i) k now
      obtain ⟨r', hall, hsame'⟩ := ih hsame (i := i + 1) (by omega)
      refine ⟨r', ?_, hsame'⟩
      rw [Skipped.putAll, hi, hput]
      exact hall

/-- Without room for one chain the index is out of bounds at once. -/
theorem putAll_no_room {p : Pub} {start now : Nat} {k : K} {ks : List K} {i : Nat} (h : r.chains = []) :
    putAll 0 p start now r i (k :: ks) = none := by
  have hpos : r.position p = none := by simp [position, h]
  rw [Skipped.putAll, Skipped.put, hpos]
  simp [h, evict]

end Skipped

end EncedoChat.Core
