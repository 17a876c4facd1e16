import Mathlib.Data.Set.Basic
import Mathlib.Data.List.Nodup
import Mathlib.Data.List.Pairwise
import Mathlib.Data.List.Perm.Subperm
import Mathlib.Tactic.Ring

/-!
# Blocks of a power of two

A block begins at a multiple of its length. Two blocks that meet lie one in the other, so the largest blocks inside a set
are the fewest that make it up.
-/

namespace EncedoChat

structure Dyadic where
  start : Nat
  exp : Nat
  aligned : 2 ^ exp ∣ start

namespace Dyadic

def points (d : Dyadic) : Set Nat := {x | d.start ≤ x ∧ x < d.start + 2 ^ d.exp}

theorem mem_iff_div {d : Dyadic} {x : Nat} : x ∈ d.points ↔ x / 2 ^ d.exp = d.start / 2 ^ d.exp := by
  obtain ⟨k, hk⟩ := d.aligned
  have hpos := Nat.two_pow_pos d.exp
  rw [hk, Nat.mul_div_cancel_left k hpos, Nat.div_eq_iff hpos, points, Set.mem_setOf_eq, hk, Nat.mul_comm k]
  omega

/-- A block that meets one at least as long lies in it. -/
theorem subset_of_meets {c d : Dyadic} {x : Nat} (hc : x ∈ c.points) (hd : x ∈ d.points) (hle : c.exp ≤ d.exp) :
    c.points ⊆ d.points := by
  intro y hy
  have hxy : y / 2 ^ c.exp = x / 2 ^ c.exp := by rw [mem_iff_div.mp hy, mem_iff_div.mp hc]
  have hpow : 2 ^ d.exp = 2 ^ c.exp * 2 ^ (d.exp - c.exp) := by rw [← Nat.pow_add, Nat.add_sub_cancel' hle]
  rw [mem_iff_div, hpow, ← Nat.div_div_eq_div_mul, hxy, Nat.div_div_eq_div_mul, ← hpow]
  exact mem_iff_div.mp hd

end Dyadic

/-- Sets that are apart, and hold what others are made of, are no more than these. -/
theorem length_le_of_covers {C D X : Type*} (blk : C → Set X) (blk' : D → Set X) {cs : List C} {ds : List D}
    (happart : cs.Pairwise fun a b => ∀ x ∈ blk a, x ∉ blk b) (hne : ∀ c ∈ cs, (blk c).Nonempty)
    (hin : ∀ d ∈ ds, ∃ c ∈ cs, blk' d ⊆ blk c) (hcover : ∀ c ∈ cs, ∀ x ∈ blk c, ∃ d ∈ ds, x ∈ blk' d) :
    cs.length ≤ ds.length := by
  have hsymm : Std.Symm fun a b => ∀ x ∈ blk a, x ∉ blk b := ⟨fun _ _ h x hb ha => h x ha hb⟩
  have hone : ∀ a ∈ cs, ∀ b ∈ cs, ∀ x, x ∈ blk a → x ∈ blk b → a = b := by
    intro a ha b hb x hxa hxb
    by_contra hab
    exact happart.forall ha hb hab x hxa hxb
  have hnodup : cs.Nodup := by
    refine happart.imp_of_mem ?_
    rintro a b ha - hdisj rfl
    obtain ⟨x, hx⟩ := hne a ha
    exact hdisj x hx hx
  -- what holds a point of `c` lies in `c`
  have hpick : ∀ c ∈ cs, ∃ d ∈ ds, (blk' d).Nonempty ∧ blk' d ⊆ blk c := by
    intro c hc
    obtain ⟨x, hx⟩ := hne c hc
    obtain ⟨d, hd, hxd⟩ := hcover c hc x hx
    obtain ⟨c', hc', hsub⟩ := hin d hd
    obtain rfl := hone c hc c' hc' x hx (hsub hxd)
    exact ⟨d, hd, ⟨x, hxd⟩, hsub⟩
  choose f hmem hnonempty hsub using hpick
  have hinj : (cs.attach.map fun c => f c.1 c.2).Nodup := by
    refine (List.nodup_attach.mpr hnodup).map ?_
    rintro ⟨a, ha⟩ ⟨b, hb⟩ heq
    obtain ⟨x, hx⟩ := hnonempty a ha
    have heq' : f a ha = f b hb := heq
    exact Subtype.ext (hone a ha b hb x (hsub a ha hx) (hsub b hb (heq' ▸ hx)))
  have hds : (cs.attach.map fun c => f c.1 c.2) ⊆ ds := by
    intro d hd
    obtain ⟨c, -, rfl⟩ := List.mem_map.mp hd
    exact hmem c.1 c.2
  have hlen := (List.subperm_of_subset hinj hds).length_le
  rwa [List.length_map, List.length_attach] at hlen

end EncedoChat
