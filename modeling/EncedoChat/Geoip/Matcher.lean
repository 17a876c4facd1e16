import EncedoChat.Geoip.Ranges
import EncedoChat.Geoip.Ip
import Mathlib.Data.List.GetD
import Mathlib.Data.List.ReduceOption

/-!
# The list as lines, and what reads them

`toCidrStrings` and `makeMatcher` of `geoip.mjs`. A line is made by the one and read by the other; a matcher looks an address
up by halves in the merged ranges.
-/

namespace EncedoChat.Geoip

open Units

/-- `/` -/
def SLASH : UInt16 := 0x2F

/-- `#` -/
def HASH : UInt16 := 0x23

def cidrText (v : Family) (c : Net) : Units := formatIp v c.1 ++ SLASH :: num c.2

def toCidrStrings (v4 v6 : List Range) : List Units :=
  [(v4, Family.v4), (v6, Family.v6)].flatMap fun (list, v) =>
    (mergeRanges list).flatMap fun r => (rangeToCidrs r.1 r.2 v.bits).map (cidrText v)

/-- `Number(pfx)`, of digits. A sign, a fraction, an exponent and another base are left out; of what is no number there is no
`BigInt`. -/
def prefixNumber (pfx : Units) : Option Nat := if (trim pfx).all isDigit then some (readDigits 10 decValue (trim pfx)) else none

/-- One line of `makeMatcher`: none where it throws, and no range where it is passed by. -/
def readLine (raw : Units) : Option (Option (Family × Range)) :=
  let l := trim raw
  if l = [] ∨ l.head? = some HASH then some none
  else
    let parts := l.splitOn SLASH
    match parseIp (parts.getD 0 []) with
    | none => some none
    | some (v, n) =>
      (match parts[1]? with | none => some v.bits | some pfx => prefixNumber pfx).map fun p =>
        -- `1n << -1n` is `0n`: of a length over the bits there is an empty range, in which no address lies
        if v.bits < p then none else some (v, n, n + 2 ^ (v.bits - p) - 1)

/-- The loop of `test`, between `lo` and `hi + 1`. -/
def search (r : List Range) (n lo top : Nat) : Bool :=
  if h : lo < top then
    let mid := (lo + (top - 1)) / 2
    if n < (r.getD mid (0, 0)).1 then search r n lo mid
    else if (r.getD mid (0, 0)).2 < n then search r n (mid + 1) top
    else true
  else false
termination_by top - lo
decreasing_by
  all_goals omega

def test (fam : List (Family × Range)) (addr : Units) : Bool :=
  match parseIp addr with
  | none => false
  | some (v, n) =>
    let r := mergeRanges ((fam.filter fun e => e.1 = v).map Prod.snd)
    search r n 0 r.length

def makeMatcher (lines : List Units) : Option (Units → Bool) := (lines.mapM readLine).map fun read => test read.reduceOption

/-! ## The search -/

section
variable {r : List Range} {n : Nat}

/-- Ranges in order, as a search by halves takes them. -/
structure Ordered (r : List Range) : Prop where
  starts : r.Pairwise fun p q => p.1 ≤ q.1
  apart : r.Pairwise fun p q => p.2 < q.1

theorem Ordered.starts_le (h : Ordered r) {i j : Nat} (hij : i ≤ j) (hj : j < r.length) :
    (r.getD i (0, 0)).1 ≤ (r.getD j (0, 0)).1 := by
  have hi : i < r.length := Nat.lt_of_le_of_lt hij hj
  rw [List.getD_eq_getElem _ _ hi, List.getD_eq_getElem _ _ hj]
  rcases Nat.lt_or_eq_of_le hij with hlt | rfl
  · exact List.pairwise_iff_getElem.mp h.starts i j hi hj hlt
  · exact le_rfl

theorem Ordered.end_lt (h : Ordered r) {i j : Nat} (hij : i < j) (hj : j < r.length) :
    (r.getD i (0, 0)).2 < (r.getD j (0, 0)).1 := by
  have hi : i < r.length := Nat.lt_trans hij hj
  rw [List.getD_eq_getElem _ _ hi, List.getD_eq_getElem _ _ hj]
  exact List.pairwise_iff_getElem.mp h.apart i j hi hj hij

/-- All that lies in front of `lo` ends too early, and all from `top` on begins too late. -/
theorem search_iff (h : Ordered r) {lo top : Nat} (htop : top ≤ r.length) (hlow : ∀ i < lo, i < r.length → (r.getD i (0, 0)).2 < n)
    (hhigh : ∀ i, top ≤ i → i < r.length → n < (r.getD i (0, 0)).1) : search r n lo top = true ↔ n ∈ union r := by
  fun_induction search r n lo top with
  | case1 lo top hlt mid hleft ih =>
      refine ih (by omega) hlow fun i hi hlen => ?_
      exact Nat.lt_of_lt_of_le hleft (h.starts_le hi hlen)
  | case2 lo top hlt mid hleft hright ih =>
      refine ih htop (fun i hi hlen => ?_) hhigh
      rcases Nat.lt_or_eq_of_le (Nat.le_of_lt_succ hi) with hlt' | rfl
      · have := h.end_lt hlt' (by omega)
        omega
      · exact hright
  | case3 lo top hlt mid hleft hright =>
      have hmid : mid < r.length := by omega
      rw [List.getD_eq_getElem _ _ hmid] at hleft hright
      exact iff_of_true rfl ⟨r[mid], List.getElem_mem hmid, Nat.le_of_not_lt hleft, Nat.le_of_not_lt hright⟩
  | case4 lo top hge =>
      refine iff_of_false Bool.false_ne_true ?_
      rintro ⟨p, hp, hstart, hend⟩
      obtain ⟨i, hi, rfl⟩ := List.getElem_of_mem hp
      rcases Nat.lt_or_ge i lo with hlo | hlo
      · have := hlow i hlo hi
        rw [List.getD_eq_getElem _ _ hi] at this
        omega
      · have := hhigh i (by omega) hi
        rw [List.getD_eq_getElem _ _ hi] at this
        omega

theorem search_merged (list : List Range) (n : Nat) :
    search (mergeRanges list) n 0 (mergeRanges list).length = true ↔ n ∈ union list := by
  have hordered : Ordered (mergeRanges list) := ⟨mergeRanges_starts list, (mergeRanges_apart list).imp fun h => by omega⟩
  rw [search_iff hordered le_rfl (fun i hi _ => absurd hi (Nat.not_lt_zero i)) fun i hi hlen => absurd hlen (Nat.not_lt.mpr hi),
    union_mergeRanges]

end

/-! ## A line -/

/-- An address and the length of its network. -/
abbrev Cidr := Family × Net

structure Cidr.Valid (c : Cidr) : Prop where
  net : IsNet c.1.bits c.2
  inside : c.2.1 < 2 ^ c.1.bits

/-- The addresses of a block, of its own family. -/
def Cidr.points (c : Cidr) : Set (Family × Nat) := {x | x.1 = c.1 ∧ x.2 ∈ Net.points c.1.bits c.2}

def Cidr.text (c : Cidr) : Units := cidrText c.1 c.2

def Cidr.range (c : Cidr) : Range := (c.2.1, c.2.1 + 2 ^ (c.1.bits - c.2.2) - 1)

theorem points_range (c : Cidr) : Range.points c.range = Net.points c.1.bits c.2 := by
  have hpos := Nat.two_pow_pos (c.1.bits - c.2.2)
  ext x
  simp only [Range.points, Net.points, Cidr.range, Set.mem_ofPred_eq]
  omega

theorem mem_format {v : Family} {n : Nat} {u : UInt16} (h : u ∈ formatIp v n) : 46 ≤ u.toNat ∧ u.toNat ≤ 102 ∧ u ≠ SLASH := by
  have hslash : ∀ {u : UInt16}, u.toNat ≠ 47 → u ≠ SLASH := by
    rintro u hu rfl
    exact hu rfl
  cases v with
  | v4 =>
      rcases mem_format_v4 h with rfl | hdigit
      · decide
      · have := isDigit_bounds hdigit
        exact ⟨by omega, by omega, hslash (by omega)⟩
  | v6 =>
      rcases mem_format_v6 h with rfl | hhex
      · decide
      · rw [Descr.IsLowerHex] at hhex
        exact ⟨by omega, by omega, hslash (by omega)⟩

theorem mem_text {c : Cidr} {u : UInt16} (h : u ∈ c.text) : 46 ≤ u.toNat ∧ u.toNat ≤ 102 := by
  rw [Cidr.text, cidrText, List.mem_append, List.mem_cons] at h
  rcases h with h | rfl | h
  · have := mem_format h
    omega
  · decide
  · have := isDigit_bounds (isDigit_num h)
    omega

theorem trim_num (n : Nat) : trim (num n) = num n := by
  apply trim_plain
  intro u hu
  have := isDigit_bounds (isDigit_num hu)
  exact not_space (by omega) (by omega)

theorem prefixNumber_num (n : Nat) : prefixNumber (num n) = some n := by
  rw [prefixNumber, trim_num, if_pos (List.all_eq_true.mpr fun u hu => isDigit_num hu), readDigits_num]

/-- A line that is written is read as its block. -/
theorem readLine_text {c : Cidr} (h : c.Valid) : readLine c.text = some (some (c.1, c.range)) := by
  have htrim : trim c.text = c.text := by
    apply trim_plain
    intro u hu
    have := mem_text hu
    exact not_space (by omega) (by omega)
  have hentry : ¬(c.text = [] ∨ c.text.head? = some HASH) := by
    rintro (hnil | hhash)
    · simp [Cidr.text, cidrText] at hnil
    · have := (mem_text (List.mem_of_mem_head? hhash)).1
      exact absurd this (by decide)
  have hsplit : c.text.splitOn SLASH = [formatIp c.1 c.2.1, num c.2.2] := by
    have hno : ∀ x ∈ [formatIp c.1 c.2.1, num c.2.2], SLASH ∉ x := by
      intro x hx hslash
      rcases List.mem_pair.mp hx with rfl | rfl
      · exact (mem_format hslash).2.2 rfl
      · exact absurd (isDigit_num hslash) (by decide)
    have hjoin : c.text = [SLASH].intercalate [formatIp c.1 c.2.1, num c.2.2] := by simp [Cidr.text, cidrText, List.intercalate]
    rw [hjoin, List.splitOn_intercalate SLASH hno (by simp)]
  simp only [readLine, htrim, if_neg hentry, hsplit, List.getD_cons_zero, parse_format h.inside, List.getElem?_cons_succ,
    List.getElem?_cons_zero, prefixNumber_num, Option.map_some, if_neg (Nat.not_lt.mpr h.net.prefixLen)]
  rfl

theorem makeMatcher_text {cs : List Cidr} (h : ∀ c ∈ cs, c.Valid) :
    makeMatcher (cs.map Cidr.text) = some (test (cs.map fun c => (c.1, c.range))) := by
  have hread : (cs.map Cidr.text).mapM readLine = some (cs.map fun c => some (c.1, c.range)) := by
    induction cs with
    | nil => rfl
    | cons c cs ih =>
        rw [List.map_cons, List.mapM_cons, readLine_text (h c List.mem_cons_self), ih fun d hd => h d (List.mem_cons_of_mem c hd)]
        rfl
  rw [makeMatcher, hread, Option.map_some]
  simp [List.reduceOption, List.filterMap_map]

/-- An address is found in the blocks of its family. -/
theorem test_iff (cs : List Cidr) (addr : Units) :
    test (cs.map fun c => (c.1, c.range)) addr = true ↔ ∃ v n, parseIp addr = some (v, n) ∧ ∃ c ∈ cs, (v, n) ∈ c.points := by
  rw [test]
  cases parseIp addr with
  | none => simp
  | some x =>
      obtain ⟨v, n⟩ := x
      dsimp only
      rw [search_merged]
      have hunion : n ∈ union (((cs.map fun c => (c.1, c.range)).filter fun e => e.1 = v).map Prod.snd) ↔
          ∃ c ∈ cs, (v, n) ∈ c.points := by
        constructor
        · rintro ⟨r, hr, hn⟩
          simp only [List.mem_map, List.mem_filter, decide_eq_true_eq] at hr
          obtain ⟨-, ⟨⟨c, hc, rfl⟩, hv⟩, rfl⟩ := hr
          exact ⟨c, hc, hv.symm, points_range c ▸ hn⟩
        · rintro ⟨c, hc, hv, hn⟩
          refine ⟨c.range, List.mem_map.mpr ⟨(c.1, c.range), List.mem_filter.mpr ⟨List.mem_map.mpr ⟨c, hc, rfl⟩, ?_⟩, rfl⟩, ?_⟩
          · exact decide_eq_true hv.symm
          · rw [points_range]
            exact hn
      simp only [Option.some.injEq, Prod.mk.injEq, hunion]
      exact ⟨fun h => ⟨v, n, ⟨rfl, rfl⟩, h⟩, fun ⟨_, _, ⟨hv, hn⟩, h⟩ => hv ▸ hn ▸ h⟩

/-! ## The list of two families -/

/-- Addresses of `bits`. -/
def Within (bits : Nat) (list : List Range) : Prop := ∀ r ∈ list, r.1 < 2 ^ bits ∧ r.2 < 2 ^ bits

section
variable (v4 v6 : List Range)

def listed : Family → List Range
  | .v4 => v4
  | .v6 => v6

/-- What the lines of `toCidrStrings` stand for. -/
def cidrs : List Cidr := [Family.v4, Family.v6].flatMap fun v => (nets v.bits (listed v4 v6 v)).map (v, ·)

theorem toCidrStrings_text : toCidrStrings v4 v6 = (cidrs v4 v6).map Cidr.text := by
  simp only [toCidrStrings, cidrs, nets, List.flatMap_cons, List.flatMap_nil, List.map_append, List.map_flatMap, List.map_map]
  rfl

theorem mem_cidrs {c : Cidr} : c ∈ cidrs v4 v6 ↔ c.2 ∈ nets c.1.bits (listed v4 v6 c.1) := by
  obtain ⟨v, d⟩ := c
  cases v <;> simp [cidrs]

theorem points_cidrs (x : Family × Nat) : (∃ c ∈ cidrs v4 v6, x ∈ c.points) ↔ x.2 ∈ union (listed v4 v6 x.1) := by
  rw [← points_nets x.1.bits]
  constructor
  · rintro ⟨⟨v, d⟩, hc, rfl, hx⟩
    exact ⟨d, (mem_cidrs v4 v6).mp hc, hx⟩
  · rintro ⟨d, hd, hx⟩
    exact ⟨(x.1, d), (mem_cidrs v4 v6).mpr hd, rfl, hx⟩

theorem valid_cidrs (h4 : Within 32 v4) (h6 : Within 128 v6) : ∀ c ∈ cidrs v4 v6, c.Valid := by
  rintro ⟨v, d⟩ hc
  have hnet := isNet_nets ((mem_cidrs v4 v6).mp hc)
  obtain ⟨r, hr, -, hend⟩ : d.1 ∈ union (listed v4 v6 v) :=
    (points_cidrs v4 v6 (v, d.1)).mp ⟨(v, d), hc, rfl, le_rfl, Nat.lt_add_of_pos_right (Nat.two_pow_pos _)⟩
  have hin : r.2 < 2 ^ v.bits := by
    cases v with
    | v4 => exact (h4 r hr).2
    | v6 => exact (h6 r hr).2
  exact ⟨hnet, Nat.lt_of_le_of_lt hend hin⟩

theorem disjoint_cidrs : (cidrs v4 v6).Pairwise fun c d => ∀ x ∈ c.points, x ∉ d.points := by
  have hfam : ∀ v, ((nets v.bits (listed v4 v6 v)).map ((v, ·) : Net → Cidr)).Pairwise fun c d : Cidr => ∀ x ∈ c.points, x ∉ d.points := by
    intro v
    rw [List.pairwise_map]
    refine (pairwise_nets v.bits _).imp fun hcd => ?_
    rintro x ⟨-, -, hlt⟩ ⟨-, hge, -⟩
    exact absurd (hcd.trans hge) (Nat.not_le.mpr hlt)
  rw [cidrs, List.pairwise_flatMap]
  refine ⟨fun v _ => hfam v, List.pairwise_pair.mpr ?_⟩
  intro c hc d hd
  obtain ⟨_, -, rfl⟩ := List.mem_map.mp hc
  obtain ⟨_, -, rfl⟩ := List.mem_map.mp hd
  rintro x ⟨hx, -⟩ ⟨hx', -⟩
  rw [hx] at hx'
  cases hx'

/-- No fewer blocks are the same addresses. -/
theorem cidrs_fewest {ds : List Cidr} (hvalid : ∀ d ∈ ds, IsNet d.1.bits d.2)
    (hsame : ∀ x, (∃ d ∈ ds, x ∈ d.points) ↔ x.2 ∈ union (listed v4 v6 x.1)) : (cidrs v4 v6).length ≤ ds.length := by
  refine length_le_of_covers Cidr.points Cidr.points (disjoint_cidrs v4 v6) ?_ ?_ ?_
  · rintro c -
    exact ⟨(c.1, c.2.1), rfl, le_rfl, Nat.lt_add_of_pos_right (Nat.two_pow_pos _)⟩
  · rintro ⟨v, d⟩ hd
    have hsub : Net.points v.bits d ⊆ union (listed v4 v6 v) := fun n hn => (hsame (v, n)).mp ⟨(v, d), hd, rfl, hn⟩
    obtain ⟨c, hc, hin⟩ := inside_nets (hvalid _ hd) hsub
    exact ⟨(v, c), (mem_cidrs v4 v6).mpr hc, fun x hx => ⟨hx.1, hin hx.2⟩⟩
  · intro c hc x hx
    exact (hsame x).mpr ((points_cidrs v4 v6 x).mp ⟨c, hc, hx⟩)

end

/-- The lines are blocks apart that make up the ranges, as few as can be, and a matcher over them knows the addresses of
the ranges and no others. -/
theorem block_list_exact (v4 v6 : List Range) (h4 : Within 32 v4) (h6 : Within 128 v6) :
    ∃ cs : List Cidr, toCidrStrings v4 v6 = cs.map Cidr.text ∧ (∀ c ∈ cs, c.Valid) ∧
      cs.Pairwise (fun c d => ∀ x ∈ c.points, x ∉ d.points) ∧
      (∀ v n, (∃ c ∈ cs, (v, n) ∈ c.points) ↔ n ∈ union ((listed v4 v6 v).filter fun r => r.1 ≤ r.2)) ∧
      (∀ ds : List Cidr, (∀ d ∈ ds, IsNet d.1.bits d.2) → (∀ x, (∃ d ∈ ds, x ∈ d.points) ↔ ∃ c ∈ cs, x ∈ c.points) →
        cs.length ≤ ds.length) ∧
      ∃ matcher, makeMatcher (toCidrStrings v4 v6) = some matcher ∧
        (∀ addr, matcher addr = true ↔
          ∃ v n, parseIp addr = some (v, n) ∧ n ∈ union ((listed v4 v6 v).filter fun r => r.1 ≤ r.2)) ∧
        ∀ v n, n < 2 ^ v.bits →
          (matcher (formatIp v n) = true ↔ n ∈ union ((listed v4 v6 v).filter fun r => r.1 ≤ r.2)) := by
  have hfilter : ∀ (list : List Range) n, n ∈ union (list.filter fun r => r.1 ≤ r.2) ↔ n ∈ union list := by
    intro list n
    constructor
    · rintro ⟨r, hr, hn⟩
      exact ⟨r, List.mem_of_mem_filter hr, hn⟩
    · rintro ⟨r, hr, hstart, hend⟩
      exact ⟨r, List.mem_filter.mpr ⟨hr, decide_eq_true (hstart.trans hend)⟩, hstart, hend⟩
  simp only [hfilter]
  have hvalid := valid_cidrs v4 v6 h4 h6
  have htest : ∀ addr, test ((cidrs v4 v6).map fun c => (c.1, c.range)) addr = true ↔
      ∃ v n, parseIp addr = some (v, n) ∧ n ∈ union (listed v4 v6 v) := by
    intro addr
    simp only [test_iff, points_cidrs]
  refine ⟨cidrs v4 v6, toCidrStrings_text v4 v6, hvalid, disjoint_cidrs v4 v6, fun v n => points_cidrs v4 v6 (v, n), ?_, ?_⟩
  · intro ds hds hsame
    exact cidrs_fewest v4 v6 hds fun x => (hsame x).trans (points_cidrs v4 v6 x)
  · refine ⟨_, toCidrStrings_text v4 v6 ▸ makeMatcher_text hvalid, htest, fun v n hn => ?_⟩
    rw [htest, parse_format hn]
    simp only [Option.some.injEq, Prod.mk.injEq]
    exact ⟨fun ⟨_, _, ⟨hv, hm⟩, hu⟩ => hv ▸ hm ▸ hu, fun hu => ⟨v, n, ⟨rfl, rfl⟩, hu⟩⟩

/-- Two ranges that touch, one that is inverted, and all of the other family. -/
theorem block_list_touching :
    ∃ matcher, makeMatcher (toCidrStrings [(0x0A000080, 0x0A0000FF), (0x0A000000, 0x0A00007F), (9, 3)] [(0, 2 ^ 128 - 1)]) =
        some matcher ∧
      matcher (ascii "10.0.0.255") = true ∧ matcher (ascii "10.0.1.0") = false := by
  obtain ⟨-, -, -, -, -, -, matcher, hmatcher, htest, -⟩ :=
    block_list_exact [(0x0A000080, 0x0A0000FF), (0x0A000000, 0x0A00007F), (9, 3)] [(0, 2 ^ 128 - 1)] (by simp [Within])
      (by simp [Within])
  have hin : parseIp (ascii "10.0.0.255") = some (.v4, 0x0A0000FF) := by rfl
  have hout : parseIp (ascii "10.0.1.0") = some (.v4, 0x0A000100) := by rfl
  refine ⟨matcher, hmatcher, (htest _).mpr ⟨.v4, 0x0A0000FF, hin, ?_⟩, Bool.eq_false_iff.mpr fun htrue => ?_⟩
  · exact ⟨(0x0A000080, 0x0A0000FF), by simp [listed], by decide, by decide⟩
  · obtain ⟨v, n, hparse, r, hr, hstart, hend⟩ := (htest _).mp htrue
    rw [hout] at hparse
    obtain ⟨rfl, rfl⟩ := Prod.mk.inj (Option.some.inj hparse)
    simp only [listed, List.mem_filter, List.mem_cons, List.not_mem_nil, or_false] at hr
    rcases hr.1 with rfl | rfl | rfl
    · exact absurd hend (by decide)
    · exact absurd hend (by decide)
    · exact absurd hr.2 (by decide)

end EncedoChat.Geoip
