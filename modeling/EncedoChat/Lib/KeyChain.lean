import Mathlib.Logic.Function.Iterate
import Mathlib.Data.List.Nodup

/-!
# Hash chains of keys

A chain key yields a message key and the next chain key. Both the 1:1 ratchet and the group sender
keys walk such a chain; `walk` hands back the message keys it passes over.
-/

namespace EncedoChat

/-- The two derivations of a symmetric ratchet. -/
structure KeyChain (K : Type) where
  messageKey : K → K
  chainNext : K → K

namespace KeyChain

variable {K : Type} (C : KeyChain K)

/-- The chain key `n` steps on from `ck`. -/
def chainAt (ck : K) (n : Nat) : K := C.chainNext^[n] ck

/-- The message key of position `n` of the chain that starts at `ck`. -/
def keyAt (ck : K) (n : Nat) : K := C.messageKey (C.chainAt ck n)

/-- Walk `k` steps from `ck`: the message keys passed over, and the chain key arrived at. -/
def walk (ck : K) : Nat → List K × K
  | 0 => ([], ck)
  | k + 1 => (C.messageKey ck :: (walk (C.chainNext ck) k).1, (walk (C.chainNext ck) k).2)

@[simp] theorem chainAt_zero (ck : K) : C.chainAt ck 0 = ck := rfl

theorem chainAt_succ (ck : K) (n : Nat) : C.chainAt ck (n + 1) = C.chainNext (C.chainAt ck n) :=
  Function.iterate_succ_apply' _ _ _

theorem chainAt_add (ck : K) (m n : Nat) : C.chainAt (C.chainAt ck m) n = C.chainAt ck (m + n) := by
  rw [chainAt, chainAt, chainAt, Nat.add_comm, Function.iterate_add_apply]

theorem walk_snd (ck : K) (k : Nat) : (C.walk ck k).2 = C.chainAt ck k := by
  induction k generalizing ck with
  | zero => rfl
  | succ k ih => exact ih _

@[simp] theorem length_walk (ck : K) (k : Nat) : (C.walk ck k).1.length = k := by
  induction k generalizing ck with
  | zero => rfl
  | succ k ih => simp [walk, ih]

/-- The keys passed over are the message keys of the positions passed over. -/
theorem walk_getElem? (ck : K) {k i : Nat} (hi : i < k) :
    (C.walk ck k).1[i]? = some (C.keyAt ck i) := by
  induction k generalizing ck i with
  | zero => omega
  | succ k ih =>
      cases i with
      | zero => rfl
      | succ i => exact ih (C.chainNext ck) (by omega)

/-- Collision freeness of the two derivations, and of either against the keys in `Start`, the ones a
chain may begin with: outputs of other derivations. -/
structure Ideal (Start : K → Prop) : Prop where
  messageKey_inj : ∀ {a b}, C.messageKey a = C.messageKey b → a = b
  chainNext_inj : ∀ {a b}, C.chainNext a = C.chainNext b → a = b
  chainNext_not_start : ∀ {a}, ¬Start (C.chainNext a)

namespace Ideal

variable {C} {Start : K → Prop} (h : C.Ideal Start)
include h

theorem chainAt_inj {a b : K} {n : Nat} (he : C.chainAt a n = C.chainAt b n) : a = b := by
  induction n with
  | zero => exact he
  | succ n ih => rw [chainAt_succ, chainAt_succ] at he; exact ih (h.chainNext_inj he)

/-- Two chains meet only if they are one chain, read at one position. -/
theorem chainAt_eq {a b : K} {m n : Nat} (ha : Start a) (hb : Start b) (he : C.chainAt a m = C.chainAt b n) :
    a = b ∧ m = n := by
  rcases Nat.lt_trichotomy m n with hlt | rfl | hlt
  · obtain ⟨d, rfl⟩ : ∃ d, n = d + 1 + m := ⟨n - m - 1, by omega⟩
    rw [← chainAt_add] at he
    have hs : C.chainAt b (d + 1) = a := (h.chainAt_inj he).symm
    rw [chainAt_succ] at hs
    exact absurd (hs ▸ ha) h.chainNext_not_start
  · exact ⟨h.chainAt_inj he, rfl⟩
  · obtain ⟨d, rfl⟩ : ∃ d, m = d + 1 + n := ⟨m - n - 1, by omega⟩
    rw [← chainAt_add] at he
    have hs : C.chainAt a (d + 1) = b := h.chainAt_inj he
    rw [chainAt_succ] at hs
    exact absurd (hs ▸ hb) h.chainNext_not_start

theorem keyAt_eq {a b : K} {m n : Nat} (ha : Start a) (hb : Start b) (he : C.keyAt a m = C.keyAt b n) :
    a = b ∧ m = n :=
  h.chainAt_eq ha hb (h.messageKey_inj he)

/-- The keys of one chain, one after the other, are different. -/
theorem nodup_keys {ck : K} (hck : Start ck) {n : Nat} {ks : List K}
    (hks : ∀ i k, ks[i]? = some k → k = C.keyAt ck (n + i)) : ks.Nodup := by
  rw [List.nodup_iff_getElem?_ne_getElem?]
  intro i j hij hj he
  have hgj := List.getElem?_eq_getElem hj
  rw [hgj] at he
  have hkey := (hks i _ he).symm.trans (hks j _ hgj)
  have := (h.keyAt_eq hck hck hkey).2
  omega

end Ideal

end KeyChain

end EncedoChat
