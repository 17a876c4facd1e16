import EncedoChat.Eh2.Ideal

/-!
# The sending chains of a session

The chains opened so far, newest first. They alternate between the two sides, each opened with a fresh
key against the key of the one before.
-/

namespace EncedoChat.Eh2

variable {S : Suite}

structure Chain (S : Suite) where
  owner : Role
  key : S.Priv
  /-- the key of the other side that the root step was made with -/
  partner : S.Priv
  salt : S.Key
  ikm : RootIkm S.Shared S.Ss
  pn : Nat
  ct : Option Bytes

def Chain.rk (c : Chain S) : S.Key := (S.dhStep c.salt c.ikm).1
def Chain.ck (c : Chain S) : S.Key := (S.dhStep c.salt c.ikm).2

inductive Linked : List (Chain S) → Prop
  | first {c} :
      c.owner = .initiator → S.pub c.key ≠ S.pub c.partner →
      S.dh c.key (S.pub c.partner) = some c.ikm.dh → Linked [c]
  | next {c d cs} :
      Linked (d :: cs) → c.owner = d.owner.other → c.partner = d.key → c.salt = d.rk →
      S.dh c.key (S.pub c.partner) = some c.ikm.dh →
      (∀ e ∈ d :: cs, S.pub c.key ≠ S.pub e.key ∧ S.pub c.key ≠ S.pub e.partner) →
      Linked (c :: d :: cs)

namespace Linked

variable {c d e : Chain S} {cs : List (Chain S)}

theorem dh (hl : Linked cs) (hc : c ∈ cs) : S.dh c.key (S.pub c.partner) = some c.ikm.dh := by
  induction hl with
  | first _ _ hdh =>
      rw [List.mem_singleton] at hc
      exact hc ▸ hdh
  | next _ _ _ _ hdh _ ih =>
      rcases List.mem_cons.mp hc with rfl | hc
      · exact hdh
      · exact ih hc

/-- The newest key has not been stepped against yet. -/
theorem head_not_partner (hl : Linked (c :: cs)) (he : e ∈ c :: cs) : S.pub c.key ≠ S.pub e.partner := by
  cases hl with
  | first _ hne _ =>
      rw [List.mem_singleton] at he
      exact he ▸ hne
  | next _ _ hp _ _ hf =>
      rcases List.mem_cons.mp he with rfl | he
      · rw [hp]; exact (hf _ (List.mem_cons_self ..)).1
      · exact (hf e he).2

theorem tail (hl : Linked (c :: d :: cs)) : Linked (d :: cs) := by
  cases hl with
  | next hl => exact hl

theorem owner (hl : Linked (c :: d :: cs)) : c.owner = d.owner.other := by
  cases hl with
  | next _ ho => exact ho

theorem partner (hl : Linked (c :: d :: cs)) : c.partner = d.key := by
  cases hl with
  | next _ _ hp => exact hp

theorem salt (hl : Linked (c :: d :: cs)) : c.salt = d.rk := by
  cases hl with
  | next _ _ _ hs => exact hs

theorem key_inj (hl : Linked cs) (hc : c ∈ cs) (he : e ∈ cs) (h : S.pub c.key = S.pub e.key) : c = e := by
  induction hl with
  | first =>
      rw [List.mem_singleton] at hc he
      rw [hc, he]
  | next _ _ _ _ _ hf ih =>
      rcases List.mem_cons.mp hc with rfl | hc' <;> rcases List.mem_cons.mp he with rfl | he'
      · rfl
      · exact absurd h (hf e he').1
      · exact absurd h.symm (hf c hc').1
      · exact ih hc' he'

theorem partner_inj (hl : Linked cs) (hc : c ∈ cs) (he : e ∈ cs) (h : S.pub c.partner = S.pub e.partner) :
    c = e := by
  induction hl with
  | first =>
      rw [List.mem_singleton] at hc he
      rw [hc, he]
  | next hl _ hp _ _ _ ih =>
      rcases List.mem_cons.mp hc with rfl | hc' <;> rcases List.mem_cons.mp he with rfl | he'
      · rfl
      · exact absurd (hp ▸ h) (hl.head_not_partner he')
      · exact absurd (hp ▸ h.symm) (hl.head_not_partner hc')
      · exact ih hc' he'

theorem not_crossed (hl : Linked cs) (hc : c ∈ cs) (he : e ∈ cs) :
    ¬(S.pub c.key = S.pub e.partner ∧ S.pub c.partner = S.pub e.key) := by
  induction hl with
  | first _ hne _ =>
      rw [List.mem_singleton] at hc he
      subst hc; subst he
      exact fun h => hne h.1
  | next hl ho hp hs hdh hf ih =>
      have hl' := Linked.next hl ho hp hs hdh hf
      rcases List.mem_cons.mp hc with rfl | hc'
      · exact fun h => hl'.head_not_partner he h.1
      · rcases List.mem_cons.mp he with rfl | he'
        · exact fun h => hl'.head_not_partner hc h.2.symm
        · exact ih hc' he'

variable (I : S.Ideal)
include I

/-- A message key names its chain and its place there. -/
theorem keyAt_inj (hl : Linked cs) (hc : c ∈ cs) (he : e ∈ cs) {m n : Nat}
    (h : S.chain.keyAt c.ck m = S.chain.keyAt e.ck n) : c = e ∧ m = n := by
  obtain ⟨-, hi, hmn⟩ := I.keyAt_inj h
  refine ⟨?_, hmn⟩
  have hdh : S.dh c.key (S.pub c.partner) = S.dh e.key (S.pub e.partner) := by
    rw [hl.dh hc, hl.dh he, hi]
  rcases I.dh_inj hdh with ⟨hk, -⟩ | hx
  · exact hl.key_inj hc he hk
  · exact absurd hx (hl.not_crossed hc he)

/-- The root step that opens a chain can only be made by the owner of its partner key. -/
theorem turn (hl : Linked cs) (hc : c ∈ cs) {self : S.Priv}
    (h : S.dh self (S.pub c.key) = some c.ikm.dh) : S.pub self = S.pub c.partner := by
  have hne : S.pub c.key ≠ S.pub c.partner := fun h => hl.not_crossed hc hc ⟨h, h.symm⟩
  rw [← hl.dh hc] at h
  rcases I.dh_inj h with ⟨-, hk⟩ | ⟨hp, -⟩
  · exact absurd hk hne
  · exact hp

end Linked

end EncedoChat.Eh2
