import EncedoChat.Lib.Bytes
import Mathlib.Tactic.IntervalCases

/-!
# EBML

Elements one after another, some of them with elements in them. A header is two numbers of announced width, the second the
length of what follows or, all ones, no length at all. Any bytes at all are read as a tree; what is not an element is
kept as it stands.
-/

namespace EncedoChat.Ebml

/-! ## Numbers of announced width -/

/-- The number of bytes, by the first bit set in the first. -/
def vintWidth (first : UInt8) : Nat :=
  [0x80, 0x40, 0x20, 0x10, 0x08, 0x04, 0x02, 0x01].findIdx (fun mask => first &&& mask != 0) + 1

/-- Without the mark. -/
def lowBits (first : UInt8) : Nat := first.toNat &&& (0xff >>> vintWidth first)

def vintSize : Bytes → Nat
  | [] => 0
  | first :: more => more.foldl (fun v u => v * 256 + u.toNat) (lowBits first)

/-- All ones. -/
def isUnknown : Bytes → Bool
  | [] => false
  | first :: more => lowBits first == 0xff >>> vintWidth first && more.all (· == 0xff)

/-- Such a number, of at most `max` bytes. -/
def IsVint (max : Nat) (v : Bytes) : Prop :=
  ∃ first more, v = first :: more ∧ first ≠ 0 ∧ vintWidth first ≤ max ∧ v.length = vintWidth first

def takeVint (max : Nat) : Bytes → Option (Bytes × Bytes)
  | [] => none
  | first :: more =>
    if first = 0 ∨ max < vintWidth first ∨ (first :: more).length < vintWidth first then none
    else some ((first :: more).splitAt (vintWidth first))

/-- A number in a width that it fits. -/
def vint (width value : Nat) : Bytes :=
  match Bytes.ofNat width value with
  | [] => []
  | u :: us => (u ||| UInt8.ofNat (0x80 >>> (width - 1))) :: us

theorem vintWidth_pos (first : UInt8) : 0 < vintWidth first := Nat.succ_pos _

theorem width_table : ∀ n < 256, n ≠ 0 → vintWidth (UInt8.ofNat n) ≤ 8 := by
  decide +kernel

theorem vintWidth_le {first : UInt8} (h : first ≠ 0) : vintWidth first ≤ 8 := by
  have hne : first.toNat ≠ 0 := fun h0 => h (UInt8.toNat_inj.mp h0)
  simpa using width_table first.toNat first.toNat_lt hne

theorem IsVint.length_pos {max : Nat} {v : Bytes} (h : IsVint max v) : 0 < v.length := by
  obtain ⟨first, more, rfl, -⟩ := h
  exact Nat.succ_pos _

theorem takeVint_eq_some {max : Nat} {bs v r : Bytes} :
    takeVint max bs = some (v, r) ↔ bs = v ++ r ∧ IsVint max v := by
  constructor
  · intro h
    cases bs with
    | nil => cases h
    | cons first more =>
        rw [takeVint] at h
        split at h
        · cases h
        · next hok =>
          simp only [not_or, not_lt] at hok
          obtain ⟨hne, hmax, hlen⟩ := hok
          rw [List.splitAt_eq, Option.some.injEq, Prod.mk.injEq] at h
          obtain ⟨rfl, rfl⟩ := h
          refine ⟨(List.take_append_drop _ _).symm, first, more.take (vintWidth first - 1), ?_, hne, hmax, ?_⟩
          · obtain ⟨w, hw⟩ := Nat.exists_eq_succ_of_ne_zero (vintWidth_pos first).ne'
            rw [hw, List.take_succ_cons, Nat.succ_sub_one]
          · exact List.length_take_of_le hlen
  · rintro ⟨rfl, first, more, rfl, hne, hmax, hlen⟩
    rw [List.cons_append, takeVint, if_neg, List.splitAt_eq, ← List.cons_append, ← hlen, List.take_left, List.drop_left]
    rw [not_or, not_or, not_lt, not_lt, ← List.cons_append, List.length_append, hlen]
    exact ⟨hne, hmax, Nat.le_add_right _ _⟩

/-- Where such a number ends is seen from its start. -/
theorem IsVint.unique {max : Nat} {v v' r r' : Bytes} (hv : IsVint max v) (hv' : IsVint max v') (h : v ++ r = v' ++ r') :
    v = v' ∧ r = r' := by
  have hone : takeVint max (v ++ r) = some (v, r) := takeVint_eq_some.mpr ⟨rfl, hv⟩
  rw [h, takeVint_eq_some.mpr ⟨rfl, hv'⟩, Option.some.injEq, Prod.mk.injEq] at hone
  exact ⟨hone.1.symm, hone.2.symm⟩

theorem foldl_ones {more : Bytes} (h : more.all (· == 0xff) = true) (v : Nat) :
    more.foldl (fun v u => v * 256 + u.toNat) v + 1 = (v + 1) * 256 ^ more.length := by
  induction more generalizing v with
  | nil => simp
  | cons u more ih =>
      rw [List.all_cons, Bool.and_eq_true, beq_iff_eq] at h
      obtain ⟨rfl, hmore⟩ := h
      have hu : (0xff : UInt8).toNat = 255 := rfl
      rw [List.foldl_cons, ih hmore, hu, List.length_cons, pow_succ']
      ring

theorem foldl_toNat (first : UInt8) (more : Bytes) :
    more.foldl (fun v u => v * 256 + u.toNat) first.toNat = Bytes.toNat (first :: more) := by
  rw [Bytes.toNat, List.foldl_cons, Nat.zero_mul, Nat.zero_add]

theorem shift_ones {w : Nat} (h : 1 ≤ w) (h8 : w ≤ 8) : 0xff >>> w + 1 = 2 ^ (8 - w) := by
  interval_cases w <;> rfl

theorem pow_width {w : Nat} (h : 1 ≤ w) (h8 : w ≤ 8) : 2 ^ (8 - w) * 256 ^ (w - 1) = 2 ^ (7 * w) := by
  interval_cases w <;> rfl

theorem vintSize_unknown {v : Bytes} (hv : IsVint 8 v) (h : isUnknown v = true) : vintSize v + 1 = 2 ^ (7 * v.length) := by
  obtain ⟨first, more, rfl, -, hmax, hlen⟩ := hv
  rw [isUnknown, Bool.and_eq_true, beq_iff_eq] at h
  have hmore : more.length = vintWidth first - 1 := by
    rw [List.length_cons] at hlen
    omega
  rw [vintSize, foldl_ones h.2, h.1, hlen, hmore, shift_ones (vintWidth_pos first) hmax, pow_width (vintWidth_pos first) hmax]

theorem le_vintSize_unknown {v : Bytes} (hv : IsVint 8 v) (h : isUnknown v = true) : 127 ≤ vintSize v := by
  have hsize := vintSize_unknown hv h
  have hle : 2 ^ 7 ≤ 2 ^ (7 * v.length) := Nat.pow_le_pow_right (by decide) (Nat.le_mul_of_pos_right 7 hv.length_pos)
  omega

/-! ### And written -/

theorem mark_table : ∀ w ∈ List.range' 1 8, ∀ n < 2 ^ (8 - w),
    let first := UInt8.ofNat n ||| UInt8.ofNat (0x80 >>> (w - 1))
    first ≠ 0 ∧ vintWidth first = w ∧ lowBits first = n := by
  decide

theorem ofNat_cons (k n : Nat) : ∃ us, Bytes.ofNat (k + 1) n = UInt8.ofNat (n / 256 ^ k) :: us ∧ us.length = k := by
  induction k generalizing n with
  | zero => exact ⟨[], by simp [Bytes.ofNat], rfl⟩
  | succ k ih =>
      obtain ⟨us, hus, hlen⟩ := ih (n / 256)
      refine ⟨us ++ [UInt8.ofNat n], ?_, by rw [List.length_append, hlen, List.length_singleton]⟩
      rw [Bytes.ofNat, hus, List.cons_append, Nat.div_div_eq_div_mul, pow_succ']

/-- A number that is not all ones is read back. -/
theorem vint_ok {w n : Nat} (hw : 1 ≤ w) (hw8 : w ≤ 8) (hn : n < 2 ^ (7 * w) - 1) :
    IsVint 8 (vint w n) ∧ (vint w n).length = w ∧ vintSize (vint w n) = n ∧ isUnknown (vint w n) = false := by
  obtain ⟨k, rfl⟩ : ∃ k, w = k + 1 := ⟨w - 1, by omega⟩
  obtain ⟨us, hus, hlen⟩ := ofNat_cons k n
  have hpow : 2 ^ (8 - (k + 1)) * 256 ^ k = 2 ^ (7 * (k + 1)) := pow_width hw hw8
  have htop : n / 256 ^ k < 2 ^ (8 - (k + 1)) := by
    have hpos : 0 < 256 ^ k := Nat.pow_pos (by decide)
    rw [Nat.div_lt_iff_lt_mul hpos]
    omega
  obtain ⟨hne, hwidth, hlow⟩ := mark_table (k + 1) (by rw [List.mem_range'_1]; omega) _ htop
  have hle : 2 ^ (8 - (k + 1)) ≤ 2 ^ 8 := Nat.pow_le_pow_right (by decide) (by omega)
  have hsmall : n / 256 ^ k < 256 := lt_of_lt_of_le htop hle
  have hval : us.foldl (fun v u => v * 256 + u.toNat) (n / 256 ^ k) = n := by
    have hto : (UInt8.ofNat (n / 256 ^ k)).toNat = n / 256 ^ k := by
      rw [UInt8.toNat_ofNat', Nat.mod_eq_of_lt hsmall]
    have h256 : n < 256 ^ (k + 1) := by
      rw [pow_succ']
      calc n < 2 ^ (8 - (k + 1)) * 256 ^ k := by omega
        _ ≤ 256 * 256 ^ k := Nat.mul_le_mul_right _ hle
    rw [← hto, foldl_toNat, ← hus, Bytes.toNat_ofNat, Nat.mod_eq_of_lt h256]
  have hvint : vint (k + 1) n = (UInt8.ofNat (n / 256 ^ k) ||| UInt8.ofNat (0x80 >>> (k + 1 - 1))) :: us := by
    rw [vint, hus]
  have hIs : IsVint 8 (vint (k + 1) n) := by
    refine ⟨_, us, hvint, hne, hwidth.trans_le hw8, ?_⟩
    rw [hvint, List.length_cons, hlen, hwidth]
  have hlength : (vint (k + 1) n).length = k + 1 := by rw [hvint, List.length_cons, hlen]
  have hsize : vintSize (vint (k + 1) n) = n := by rw [hvint, vintSize, hlow, hval]
  refine ⟨hIs, hlength, hsize, ?_⟩
  cases hunk : isUnknown (vint (k + 1) n) with
  | false => rfl
  | true =>
      have hones := vintSize_unknown hIs hunk
      rw [hsize, hlength] at hones
      omega

/-! ## Trees -/

structure Head where
  id : Nat
  /-- of the size -/
  width : Nat
  unknown : Bool
  deriving DecidableEq

inductive Node where
  /-- what is not an element -/
  | junk (bs : Bytes)
  | leaf (head : Head) (content : Bytes)
  | master (head : Head) (children : List Node)

/-- What an element is taken apart into, with what is after it. -/
structure Raw where
  id : Bytes
  size : Bytes
  content : Bytes
  rest : Bytes

def Raw.head (e : Raw) : Head := ⟨Bytes.toNat e.id, e.size.length, isUnknown e.size⟩

def takeElem (bs : Bytes) : Option Raw :=
  match takeVint 4 bs with
  | none => none
  | some (id, bs) =>
    match takeVint 8 bs with
    | none => none
    | some (size, bs) =>
      if isUnknown size then some ⟨id, size, bs, []⟩
      else if vintSize size ≤ bs.length then some ⟨id, size, bs.take (vintSize size), bs.drop (vintSize size)⟩
      else none

/-- The tree with a bound on its depth and length. -/
def nodes (isMaster : Nat → Bool) : Nat → Bytes → List Node
  | 0, _ => []
  | n + 1, bs =>
    if bs.isEmpty then []
    else
      match takeElem bs with
      | none => [.junk bs]
      | some e =>
        (if isMaster e.head.id then .master e.head (nodes isMaster n e.content) else .leaf e.head e.content) ::
          nodes isMaster n e.rest

def tree (isMaster : Nat → Bool) (bs : Bytes) : List Node := nodes isMaster bs.length bs

mutual

/-- The ids of all elements, wherever they stand. -/
def Node.ids : Node → List Nat
  | .junk _ => []
  | .leaf head _ => [head.id]
  | .master head children => head.id :: idsOf children

def idsOf : List Node → List Nat
  | [] => []
  | n :: ns => n.ids ++ idsOf ns

end

def Node.head? : Node → Option Head
  | .junk _ => none
  | .leaf head _ | .master head _ => some head

def Node.id? (n : Node) : Option Nat := n.head?.map Head.id

/-- An element with a size. -/
def Node.Closed (n : Node) : Prop := ∃ head, n.head? = some head ∧ head.unknown = false

theorem takeElem_eq_some {bs : Bytes} {e : Raw} :
    takeElem bs = some e ↔ bs = e.id ++ (e.size ++ (e.content ++ e.rest)) ∧ IsVint 4 e.id ∧ IsVint 8 e.size ∧
      if isUnknown e.size then e.rest = [] else e.content.length = vintSize e.size := by
  rw [takeElem]
  constructor
  · intro h
    cases hid : takeVint 4 bs with
    | none => simp [hid] at h
    | some p =>
        obtain ⟨id, bs'⟩ := p
        simp only [hid] at h
        obtain ⟨rfl, hidv⟩ := takeVint_eq_some.mp hid
        cases hsize : takeVint 8 bs' with
        | none => simp [hsize] at h
        | some p =>
            obtain ⟨size, r⟩ := p
            simp only [hsize] at h
            obtain ⟨rfl, hsizev⟩ := takeVint_eq_some.mp hsize
            split at h
            next hunk =>
              cases h
              exact ⟨by rw [List.append_nil], hidv, hsizev, by rw [if_pos hunk]⟩
            next hunk =>
              split at h
              next hle =>
                cases h
                refine ⟨by rw [List.take_append_drop], hidv, hsizev, ?_⟩
                rw [if_neg hunk]
                exact List.length_take_of_le hle
              next => cases h
  · rintro ⟨rfl, hid, hsize, hrest⟩
    have htid : takeVint 4 (e.id ++ (e.size ++ (e.content ++ e.rest))) = some (e.id, e.size ++ (e.content ++ e.rest)) :=
      takeVint_eq_some.mpr ⟨rfl, hid⟩
    have htsize : takeVint 8 (e.size ++ (e.content ++ e.rest)) = some (e.size, e.content ++ e.rest) :=
      takeVint_eq_some.mpr ⟨rfl, hsize⟩
    simp only [htid, htsize]
    split at hrest
    next hunk =>
      obtain ⟨id, size, content, rest⟩ := e
      cases hrest
      rw [if_pos hunk, List.append_nil]
    next hunk =>
      have hle : vintSize e.size ≤ (e.content ++ e.rest).length := by
        rw [List.length_append]
        omega
      rw [if_neg hunk, if_pos hle, ← hrest, List.take_left, List.drop_left]

theorem length_of_takeElem {bs : Bytes} {e : Raw} (h : takeElem bs = some e) :
    e.content.length + e.rest.length + 2 ≤ bs.length := by
  obtain ⟨rfl, hid, hsize, -⟩ := takeElem_eq_some.mp h
  have hidpos := hid.length_pos
  have hsizepos := hsize.length_pos
  simp only [List.length_append]
  omega

section

variable {isMaster : Nat → Bool}

/-- A bound that is high enough makes no difference. -/
theorem nodes_eq_tree {n : Nat} {bs : Bytes} (h : bs.length ≤ n) : nodes isMaster n bs = tree isMaster bs := by
  rw [tree]
  induction n using Nat.strong_induction_on generalizing bs with
  | _ n ih =>
    cases bs with
    | nil => cases n <;> simp [nodes]
    | cons u bs =>
        obtain ⟨n, rfl⟩ : ∃ m, n = m + 1 := ⟨n - 1, by rw [List.length_cons] at h; omega⟩
        rw [List.length_cons, nodes, nodes]
        cases hte : takeElem (u :: bs) with
        | none => rfl
        | some e =>
            have hlen := length_of_takeElem hte
            rw [List.length_cons] at h hlen
            have hsame : ∀ bs' : Bytes, bs'.length ≤ bs.length → nodes isMaster n bs' = nodes isMaster bs.length bs' :=
              fun bs' hle => (ih n (by omega) (by omega)).trans (ih bs.length (by omega) hle).symm
            dsimp only
            rw [hsame e.content (by omega), hsame e.rest (by omega)]

/-- The element as a node. -/
def Raw.node (isMaster : Nat → Bool) (e : Raw) : Node :=
  if isMaster e.head.id then .master e.head (tree isMaster e.content) else .leaf e.head e.content

@[simp] theorem tree_nil : tree isMaster [] = [] := rfl

theorem tree_of_takeElem {bs : Bytes} {e : Raw} (h : takeElem bs = some e) :
    tree isMaster bs = e.node isMaster :: tree isMaster e.rest := by
  have hlen := length_of_takeElem h
  cases bs with
  | nil => cases h
  | cons u bs =>
      rw [List.length_cons] at hlen
      have hcontent : nodes isMaster bs.length e.content = tree isMaster e.content := nodes_eq_tree (by omega)
      have hrest : nodes isMaster bs.length e.rest = tree isMaster e.rest := nodes_eq_tree (by omega)
      rw [tree, List.length_cons, nodes, h]
      dsimp only
      rw [hcontent, hrest]
      rfl

theorem tree_of_none {bs : Bytes} (hne : bs ≠ []) (h : takeElem bs = none) : tree isMaster bs = [.junk bs] := by
  cases bs with
  | nil => exact absurd rfl hne
  | cons u bs =>
      rw [tree, List.length_cons, nodes, h]
      rfl

/-! ### Elements with a size -/

/-- An element that says how long it is, and is. -/
structure Item where
  id : Bytes
  size : Bytes
  content : Bytes
  id_vint : IsVint 4 id
  size_vint : IsVint 8 size
  known : isUnknown size = false
  length_eq : content.length = vintSize size

namespace Item

def bytes (e : Item) : Bytes := e.id ++ (e.size ++ e.content)

def raw (e : Item) (rest : Bytes) : Raw := ⟨e.id, e.size, e.content, rest⟩

def num (e : Item) : Nat := Bytes.toNat e.id

def node (isMaster : Nat → Bool) (e : Item) : Node := (e.raw []).node isMaster

theorem takeElem (e : Item) (r : Bytes) : takeElem (e.bytes ++ r) = some (e.raw r) := by
  refine takeElem_eq_some.mpr ⟨?_, e.id_vint, e.size_vint, ?_⟩
  · simp only [bytes, raw, List.append_assoc]
  · rw [if_neg (by simp [raw, e.known])]
    exact e.length_eq

end Item

theorem tree_item (e : Item) (r : Bytes) : tree isMaster (e.bytes ++ r) = e.node isMaster :: tree isMaster r :=
  tree_of_takeElem (e.takeElem r)

def bytesOf (es : List Item) : Bytes := es.flatMap Item.bytes

@[simp] theorem bytesOf_cons (e : Item) (es : List Item) : bytesOf (e :: es) = e.bytes ++ bytesOf es := rfl

theorem tree_items (es : List Item) (r : Bytes) :
    tree isMaster (bytesOf es ++ r) = es.map (Item.node isMaster) ++ tree isMaster r := by
  induction es with
  | nil => rfl
  | cons e es ih => rw [bytesOf_cons, List.append_assoc, tree_item, ih, List.map_cons, List.cons_append]

theorem Raw.item_of_known {bs : Bytes} {e : Raw} (h : takeElem bs = some e) (hk : isUnknown e.size = false) :
    ∃ it : Item, it.raw e.rest = e ∧ bs = it.bytes ++ e.rest := by
  obtain ⟨rfl, hid, hsize, hrest⟩ := takeElem_eq_some.mp h
  rw [if_neg (by simp [hk])] at hrest
  refine ⟨⟨e.id, e.size, e.content, hid, hsize, hk, hrest⟩, rfl, ?_⟩
  simp only [Item.bytes, List.append_assoc]

/-- One that does not say runs to the end. -/
theorem tree_unknown {id size content : Bytes} (hid : IsVint 4 id) (hsize : IsVint 8 size) (hu : isUnknown size = true) :
    tree isMaster (id ++ (size ++ content)) = [(Raw.mk id size content []).node isMaster] := by
  have hte : takeElem (id ++ (size ++ content)) = some ⟨id, size, content, []⟩ := by
    refine takeElem_eq_some.mpr ⟨by rw [List.append_nil], hid, hsize, ?_⟩
    rw [if_pos hu]
  exact tree_of_takeElem hte

theorem Raw.node_head (e : Raw) : (e.node isMaster).head? = some e.head := by
  rw [node]
  split <;> rfl

/-- What stands before another is closed. -/
theorem closed_of_tree {bs : Bytes} {ns : List Node} {n : Node} (h : tree isMaster bs = ns ++ [n]) :
    ∀ m ∈ ns, m.Closed := by
  induction ns generalizing bs with
  | nil => exact fun m hm => absurd hm List.not_mem_nil
  | cons m ns ih =>
      have hne : bs ≠ [] := by
        rintro rfl
        cases h
      cases hte : takeElem bs with
      | none =>
          rw [tree_of_none hne hte, List.cons_append] at h
          exact absurd (List.cons.inj h).2 (by simp)
      | some e =>
          rw [tree_of_takeElem hte, List.cons_append] at h
          obtain ⟨hm, hns⟩ := List.cons.inj h
          refine List.forall_mem_cons.mpr ⟨⟨e.head, hm ▸ e.node_head, ?_⟩, ih hns⟩
          cases hu : isUnknown e.size with
          | false => exact hu
          | true =>
              obtain ⟨-, -, -, hrest⟩ := takeElem_eq_some.mp hte
              rw [if_pos hu] at hrest
              rw [hrest, tree_nil] at hns
              exact absurd hns.symm (by simp)

/-- Bytes that are elements with sizes and nothing more. -/
def Whole (bs : Bytes) : Prop := ∃ es, bs = bytesOf es

theorem whole_of_closed {bs : Bytes} (h : ∀ n ∈ tree isMaster bs, n.Closed) : Whole bs := by
  induction hlen : bs.length using Nat.strong_induction_on generalizing bs with
  | _ len ih =>
    by_cases hne : bs = []
    · exact ⟨[], hne⟩
    cases hte : takeElem bs with
    | none =>
        obtain ⟨head, hhead, -⟩ := h (.junk bs) (by rw [tree_of_none hne hte]; exact List.mem_cons_self)
        cases hhead
    | some e =>
        have hshort := length_of_takeElem hte
        rw [tree_of_takeElem hte, List.forall_mem_cons] at h
        obtain ⟨⟨head, hhead, hknown⟩, hrest⟩ := h
        rw [e.node_head] at hhead
        cases hhead
        obtain ⟨it, -, hbs⟩ := e.item_of_known hte hknown
        obtain ⟨es, hes⟩ := ih e.rest.length (by omega) hrest rfl
        exact ⟨it :: es, by rw [hbs, bytesOf_cons, ← hes]⟩

theorem Whole.tree_append {a : Bytes} (h : Whole a) (b : Bytes) :
    tree isMaster (a ++ b) = tree isMaster a ++ tree isMaster b := by
  obtain ⟨es, rfl⟩ := h
  have hnil : tree isMaster (bytesOf es ++ []) = es.map (Item.node isMaster) ++ tree isMaster [] := tree_items es []
  rw [List.append_nil, tree_nil, List.append_nil] at hnil
  rw [tree_items, hnil]

end

end EncedoChat.Ebml
