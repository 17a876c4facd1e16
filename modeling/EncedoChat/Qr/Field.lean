import EncedoChat.Lib.Horner

/-!
# The Reed-Solomon of a QR symbol

GF(256), `generator` and `ecBlock` of `lib/qr.ts`. Multiplying by `EXP[k]` is `k` turns of the loop that makes the
tables, so a block with its check words is zero at every root of the generator.
-/

namespace EncedoChat.Qr

/-- One turn of the loop that fills the tables. -/
def double (x : Nat) : Nat :=
  let x := x <<< 1
  if x &&& 0x100 ≠ 0 then x ^^^ 0x11d else x

/-- `EXP[i]` -/
def EXP (i : Nat) : Nat := double^[if i < 255 then i else i - 255] 1

/-- The loop, with `LOG` as it stands after it. -/
def fillLog : Nat → Nat → (Nat → Nat) → Nat → Nat
  | 0, _, log => log
  | n + 1, x, log => fillLog n (double x) fun a => if a = x then 254 - n else log a

/-- `LOG[a]` -/
def LOG : Nat → Nat := fillLog 255 1 fun _ => 0

def mul (a b : Nat) : Nat := if a = 0 ∨ b = 0 then 0 else EXP (LOG a + LOG b)

/-- `(x - α^i)` for each `i` below `n`, multiplied. -/
def generator (n : Nat) : List Nat :=
  (List.range n).foldl (fun g i => xorInto (g ++ [0]) (0 :: g.map fun c => mul c (EXP i))) [1]

/-- `rem[i + j] ^= p[j]` -/
def addAt (rem : List Nat) (i : Nat) (p : List Nat) : List Nat := rem.take i ++ xorInto (rem.drop i) p

/-- One turn of the division. -/
def divideAt (g rem : List Nat) (i : Nat) : List Nat :=
  let factor := rem.getD i 0
  if factor = 0 then rem else addAt rem i (g.map fun c => mul c factor)

/-- The EC codewords for one block. -/
def ecBlock (data : List Nat) (ecLen : Nat) : List Nat :=
  ((List.range data.length).foldl (divideAt (generator ecLen)) (data ++ List.replicate ecLen 0)).drop data.length

/-! ## The tables -/

theorem double_eq (x : Nat) : double x = if x.testBit 7 then x <<< 1 ^^^ 0x11d else x <<< 1 := by
  have hpow : 0x100 = 2 ^ 8 := rfl
  have hbit : (x <<< 1).testBit 8 = x.testBit 7 := Nat.testBit_shiftLeft .. |>.trans (by simp)
  simp only [double, hpow, Nat.and_two_pow, hbit]
  cases x.testBit 7 <;> simp

theorem linear_double : Linear double where
  map_xor a b := by
    rw [double_eq, double_eq a, double_eq b, Nat.testBit_xor, Nat.shiftLeft_xor_distrib]
    cases a.testBit 7 <;> cases b.testBit 7
    · rfl
    · exact Nat.xor_assoc ..
    · exact Nat.xor_right_comm ..
    · have hself : (a <<< 1 ^^^ 0x11d) ^^^ (b <<< 1 ^^^ 0x11d) = (a <<< 1 ^^^ b <<< 1) ^^^ (0x11d ^^^ 0x11d) := by
        ac_rfl
      rw [Nat.xor_self, Nat.xor_zero] at hself
      exact hself.symm

theorem double_lt : ∀ x < 256, double x < 256 := by decide +kernel

theorem iterate_double_lt {x : Nat} (h : x < 256) (k : Nat) : double^[k] x < 256 := by
  induction k with
  | zero => exact h
  | succ k ih =>
      rw [Function.iterate_succ_apply']
      exact double_lt _ ih

theorem double_period : double^[255] 1 = 1 := by decide +kernel

theorem EXP_eq {i : Nat} (h : i < 510) : EXP i = double^[i] 1 := by
  rw [EXP]
  split
  case isTrue => rfl
  case isFalse hi =>
    have hsum : i = (i - 255) + 255 := by omega
    conv_rhs => rw [hsum, Function.iterate_add_apply, double_period]

theorem LOG_spec : ∀ a < 256, a ≠ 0 → LOG a < 255 ∧ double^[LOG a] 1 = a := by decide +kernel

theorem LOG_EXP : ∀ i < 255, LOG (EXP i) = i ∧ EXP i ≠ 0 ∧ EXP i < 256 := by decide +kernel

/-- Multiplying by an element is doubling as often as its logarithm says. -/
theorem mul_eq {a b : Nat} (ha : a < 256) (hb : b < 256) (hb0 : b ≠ 0) : mul a b = double^[LOG b] a := by
  rw [mul]
  by_cases ha0 : a = 0
  · rw [if_pos (.inl ha0), ha0, (linear_double.iterate _).map_zero]
  · obtain ⟨hla, hea⟩ := LOG_spec a ha ha0
    have hlb := (LOG_spec b hb hb0).1
    rw [if_neg (not_or.mpr ⟨ha0, hb0⟩), EXP_eq (by omega), Nat.add_comm, Function.iterate_add_apply, hea]

/-- Doubling commutes with itself. -/
theorem iterate_comm (k l a : Nat) : double^[k] (double^[l] a) = double^[l] (double^[k] a) := by
  rw [← Function.iterate_add_apply, ← Function.iterate_add_apply, Nat.add_comm]

/-! ## The generator -/

/-- A polynomial of bytes of degree `n` with leading coefficient one, which is zero at the first `n` powers. -/
structure Generates (n : Nat) (g : List Nat) : Prop where
  length_eq : g.length = n + 1
  small : ∀ c ∈ g, c < 256
  head : g.getD 0 0 = 1
  root : ∀ k < n, horner double^[k] g = 0

/-- Multiplying a word by an element, as a linear map. -/
theorem map_mul {g : List Nat} (hg : ∀ c ∈ g, c < 256) {b : Nat} (hb : b < 256) (hb0 : b ≠ 0) :
    g.map (fun c => mul c b) = g.map double^[LOG b] :=
  List.map_congr_left fun c hc => mul_eq (hg c hc) hb hb0

theorem generates_next {n : Nat} {g : List Nat} (h : Generates n g) (hn : n < 255) :
    Generates (n + 1) (xorInto (g ++ [0]) (0 :: g.map fun c => mul c (EXP n))) := by
  obtain ⟨hlog, hne, hlt⟩ := LOG_EXP n hn
  have hmap : g.map (fun c => mul c (EXP n)) = g.map double^[n] := by rw [map_mul h.small hlt hne, hlog]
  have hlong : (0 :: g.map double^[n]).length = (g ++ [0]).length := by simp
  rw [hmap]
  refine ⟨?_, ?_, ?_, fun k hk => ?_⟩
  · rw [length_xorInto, List.length_append, h.length_eq, List.length_singleton]
  · refine xorInto_lt ?_ ?_
    · intro c hc
      rcases List.mem_append.mp hc with hc | hc
      · exact h.small c hc
      · rw [List.mem_singleton.mp hc]
        decide
    · rw [List.forall_mem_cons]
      refine ⟨by decide, fun c hc => ?_⟩
      obtain ⟨a, ha, rfl⟩ := List.mem_map.mp hc
      exact iterate_double_lt (h.small a ha) n
  · have hpos : 0 < g.length := by rw [h.length_eq]; exact Nat.succ_pos n
    rw [getD_xorInto (by rw [List.length_append]; omega), List.getD_append _ _ _ _ hpos, h.head,
      List.getD_cons_zero, Nat.xor_zero]
  · have hlin := linear_double.iterate k
    rw [horner_xorInto hlin hlong.le, hlong, Nat.sub_self, Function.iterate_zero_apply, horner_zero_cons hlin,
      horner_map (linear_double.iterate n) fun a => iterate_comm n k a, horner_concat, Nat.xor_zero]
    rcases Nat.lt_succ_iff_lt_or_eq.mp hk with hk | rfl
    · rw [h.root k hk, (linear_double.iterate k).map_zero, (linear_double.iterate n).map_zero, Nat.xor_self]
    · rw [Nat.xor_self]

theorem generates {n : Nat} (hn : n ≤ 255) : Generates n (generator n) := by
  induction n with
  | zero => exact ⟨rfl, by decide, rfl, fun k hk => absurd hk (Nat.not_lt_zero k)⟩
  | succ n ih =>
      have hnext : generator (n + 1) =
          xorInto (generator n ++ [0]) (0 :: (generator n).map fun c => mul c (EXP n)) := by
        rw [generator, List.range_succ, List.foldl_append]
        rfl
      rw [hnext]
      exact generates_next (ih (Nat.le_of_succ_le hn)) hn

/-! ## A block -/

/-- What the division keeps when it has come to `m`. -/
structure Divided (rem₀ : List Nat) (e m : Nat) (rem : List Nat) : Prop where
  length_eq : rem.length = rem₀.length
  small : ∀ c ∈ rem, c < 256
  value : ∀ k < e, horner double^[k] rem = horner double^[k] rem₀
  done : ∀ j < m, rem.getD j 0 = 0

theorem divided_next {rem₀ g rem : List Nat} {e m : Nat} (hg : Generates e g) (h : Divided rem₀ e m rem)
    (hm : m + e < rem₀.length) : Divided rem₀ e (m + 1) (divideAt g rem m) := by
  have hlen := h.length_eq
  rw [divideAt]
  split
  case isTrue hzero =>
    refine ⟨hlen, h.small, h.value, fun j hj => ?_⟩
    rcases Nat.lt_succ_iff_lt_or_eq.mp hj with hj | rfl
    · exact h.done j hj
    · exact hzero
  case isFalse hfactor =>
    set factor := rem.getD m 0 with hdef
    have hm' : m < rem.length := by omega
    have hsmall : factor < 256 := by
      rw [hdef, List.getD_eq_getElem _ _ hm']
      exact h.small _ (List.getElem_mem hm')
    have hmap := map_mul hg.small hsmall hfactor
    have hple : (g.map double^[LOG factor]).length ≤ (rem.drop m).length := by
      rw [List.length_map, List.length_drop, hg.length_eq]
      omega
    rw [hmap, addAt]
    refine ⟨?_, fun c hc => ?_, fun k hk => ?_, fun j hj => ?_⟩
    · rw [List.length_append, length_xorInto, ← List.length_append, List.take_append_drop, hlen]
    · rcases List.mem_append.mp hc with hc | hc
      · exact h.small c (List.mem_of_mem_take hc)
      · refine xorInto_lt (fun a ha => h.small a (List.mem_of_mem_drop ha)) (fun b hb => ?_) c hc
        obtain ⟨a, ha, rfl⟩ := List.mem_map.mp hb
        exact iterate_double_lt (hg.small a ha) _
    · have hlin := linear_double.iterate k
      rw [horner_append hlin, length_xorInto, horner_xorInto hlin hple,
        horner_map (linear_double.iterate _) fun a => iterate_comm _ k a, hg.root k hk,
        (linear_double.iterate _).map_zero, (hlin.iterate _).map_zero, Nat.xor_zero, ← horner_append hlin,
        List.take_append_drop]
      exact h.value k hk
    · rcases Nat.lt_succ_iff_lt_or_eq.mp hj with hj | rfl
      · rw [List.getD_append _ _ _ _ (by rw [List.length_take]; omega), List.getD_eq_getElem?_getD,
          List.getElem?_take_of_lt hj, ← List.getD_eq_getElem?_getD]
        exact h.done j hj
      · have htake : (rem.take j).length = j := by rw [List.length_take]; omega
        have hhead : (g.map double^[LOG factor]).getD 0 0 = factor := by
          have hg0 : 0 < g.length := by rw [hg.length_eq]; exact Nat.succ_pos e
          have hone := hg.head
          rw [List.getD_eq_getElem _ _ hg0] at hone
          rw [List.getD_eq_getElem _ _ (by rw [List.length_map]; exact hg0), List.getElem_map, hone]
          exact (LOG_spec factor hsmall hfactor).2
        rw [List.getD_append_right _ _ _ _ htake.le, htake, Nat.sub_self,
          getD_xorInto (by rw [List.length_drop]; omega), hhead, List.getD_eq_getElem?_getD, List.getElem?_drop,
          Nat.add_zero, ← List.getD_eq_getElem?_getD, ← hdef, Nat.xor_self]

variable {data : List Nat} {e : Nat}

theorem divided_data (hdata : ∀ c ∈ data, c < 256) (he : e ≤ 255) :
    Divided (data ++ List.replicate e 0) e data.length
      ((List.range data.length).foldl (divideAt (generator e)) (data ++ List.replicate e 0)) := by
  have hall : ∀ m ≤ data.length, Divided (data ++ List.replicate e 0) e m
      ((List.range m).foldl (divideAt (generator e)) (data ++ List.replicate e 0)) := by
    intro m hm
    induction m with
    | zero =>
        refine ⟨rfl, fun c hc => ?_, fun k _ => rfl, fun j hj => absurd hj (Nat.not_lt_zero j)⟩
        rcases List.mem_append.mp hc with hc | hc
        · exact hdata c hc
        · rw [List.eq_of_mem_replicate hc]
          decide
    | succ m ih =>
        rw [List.range_succ, List.foldl_append]
        refine divided_next (generates he) (ih (Nat.le_of_succ_le hm)) ?_
        rw [List.length_append, List.length_replicate]
        omega
  exact hall data.length le_rfl

theorem length_ecBlock (hdata : ∀ c ∈ data, c < 256) (he : e ≤ 255) : (ecBlock data e).length = e := by
  rw [ecBlock, List.length_drop, (divided_data hdata he).length_eq, List.length_append, List.length_replicate]
  omega

theorem ecBlock_lt (hdata : ∀ c ∈ data, c < 256) (he : e ≤ 255) : ∀ c ∈ ecBlock data e, c < 256 := fun c hc =>
  (divided_data hdata he).small c (List.mem_of_mem_drop hc)

/-- A block and its check words are zero at every root. -/
theorem syndrome_ecBlock (hdata : ∀ c ∈ data, c < 256) (he : e ≤ 255) {k : Nat} (hk : k < e) :
    horner double^[k] (data ++ ecBlock data e) = 0 := by
  have hdiv := divided_data hdata he
  have hlin := linear_double.iterate k
  set rem := (List.range data.length).foldl (divideAt (generator e)) (data ++ List.replicate e 0) with hrem
  have hzero : rem.take data.length = List.replicate data.length 0 := by
    refine List.eq_replicate_iff.mpr ⟨?_, fun c hc => ?_⟩
    · rw [List.length_take, hdiv.length_eq, List.length_append]
      omega
    · obtain ⟨j, hj, rfl⟩ := List.mem_iff_getElem.mp hc
      rw [List.length_take] at hj
      have hdone := hdiv.done j (by omega)
      rwa [List.getD_eq_getElem _ _ (by omega), ← List.getElem_take (h := by rw [List.length_take]; exact hj)] at hdone
  have hsplit : rem = List.replicate data.length 0 ++ ecBlock data e := by
    rw [← hzero]
    exact (List.take_append_drop data.length rem).symm
  have hec : horner double^[k] (ecBlock data e) = (double^[k])^[e] (horner double^[k] data) := by
    have hvalue := hdiv.value k hk
    rw [hsplit, horner_append hlin, horner_replicate_zero hlin, (hlin.iterate _).map_zero, Nat.zero_xor,
      horner_append hlin, horner_replicate_zero hlin, Nat.xor_zero, List.length_replicate] at hvalue
    exact hvalue
  rw [horner_append hlin, length_ecBlock hdata he, hec, Nat.xor_self]

end EncedoChat.Qr
