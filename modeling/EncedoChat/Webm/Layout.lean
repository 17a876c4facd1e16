import EncedoChat.Lib.Buffer
import EncedoChat.Lib.Ebml

/-!
# The length of a recording

`web/src/webm.ts`: reading as much of a file as it takes to find `Info > Duration`, and writing it. What throws is
caught, and the file is left alone.
-/

namespace EncedoChat.Webm

open Ebml (vintWidth)

def ID_SEGMENT : Nat := 0x18538067
def ID_SEEKHEAD : Nat := 0x114d9b74
def ID_INFO : Nat := 0x1549a966
def ID_TIMECODESCALE : Nat := 0x2ad7b1
def ID_DURATION : Nat := 0x4489
def ID_CLUSTER : Nat := 0x1f43b675
def ID_CUES : Nat := 0x1c53bb6b

def DEFAULT_TIMECODE_SCALE : Nat := 1000000

structure Elem where
  id : Nat
  start : Nat
  content : Nat
  size : Nat
  end_ : Nat
  unknown : Bool
  deriving DecidableEq

/-! ## Reading -/

/-- The id and its width. -/
def readId (b : Bytes) (p : Nat) : Option (Nat × Nat) :=
  match b[p]? with
  | none => none
  | some first =>
    if first = 0 then none
    else
      let width := vintWidth first
      if 4 < width ∨ b.length < p + width then none else some (Bytes.toNat (b.slice p (p + width)), width)

/-- The size, its width, and whether it is unknown. -/
def readSize (b : Bytes) (p : Nat) : Option (Nat × Nat × Bool) :=
  match b[p]? with
  | none => none
  | some first =>
    if first = 0 then none
    else
      let width := vintWidth first
      if b.length < p + width then none
      else
        let low := first.toNat &&& (0xff >>> width)
        let more := b.slice (p + 1) (p + width)
        some (more.foldl (fun size u => size * 256 + u.toNat) low, width,
          low == 0xff >>> width && more.all (· == 0xff))

def readElem (b : Bytes) (p limit : Nat) : Option Elem := do
  let (id, width) ← readId b p
  let (size, sizeWidth, unknown) ← readSize b (p + width)
  let content := p + width + sizeWidth
  let end_ := if unknown then limit else content + size
  if limit < end_ then none else some ⟨id, p, content, size, end_, unknown⟩

/-- What the generator yields, and whether it throws then. -/
def children (b : Bytes) (to_ : Nat) : Nat → Nat → List Elem × Bool
  | 0, _ => ([], false)
  | fuel + 1, p =>
    if p < to_ then
      match readElem b p to_ with
      | none => ([], true)
      | some e =>
        if e.id = ID_CLUSTER ∨ e.unknown then ([e], false)
        else
          let (es, threw) := children b to_ fuel e.end_
          (e :: es, threw)
    else ([], false)

/-- Every element takes at least one byte. -/
def childrenOf (b : Bytes) (from_ to_ : Nat) : List Elem × Bool := children b to_ to_ from_

/-- A number of any length; past `2 ^ 53` it is rounded as it is read. -/
def uintOf (b : Bytes) (e : Elem) : Nat := Bytes.toNat (b.slice e.content e.end_)

/-- Nothing where the value does not fit, or would mean an unknown size. -/
def sizeVint (value width : Nat) : Option Bytes :=
  if width < 1 ∨ 8 < width then none
  else if 2 ^ (7 * width) - 1 ≤ value then none
  else some (Ebml.vint width value)

structure Located where
  segment : Elem
  info : Elem
  duration : Option Elem
  scale : Nat
  hasOffsets : Bool
  deriving DecidableEq

/-- The last of them with that id. -/
def lastWith (id : Nat) (es : List Elem) : Option Elem := (es.filter (fun e => e.id = id)).getLast?

/-- Nothing where it throws or finds no segment or no such `Info`. -/
def locate (b : Bytes) : Option Located := do
  let segment ← (childrenOf b 0 b.length).1.find? (fun e => e.id = ID_SEGMENT)
  let (es, threw) := childrenOf b segment.content segment.end_
  if threw then none
  else
    let info ← lastWith ID_INFO es
    if info.unknown then none
    else
      let (fields, threw) := childrenOf b info.content info.end_
      if threw then none
      else
        let scale := ((lastWith ID_TIMECODESCALE fields).map (uintOf b)).getD 0
        some {
          segment
          info
          duration := lastWith ID_DURATION fields
          scale := if scale = 0 then DEFAULT_TIMECODE_SCALE else scale
          hasOffsets := es.any (fun e => e.id = ID_SEEKHEAD ∨ e.id = ID_CUES)
        }

/-! ## Writing -/

/-- The arithmetic of doubles, on their bits. -/
structure Doubles where
  /-- `(seconds * 1e9) / scale` -/
  ticks : UInt64 → Nat → UInt64
  /-- rounding to a single -/
  single : UInt64 → UInt32

/-- `seconds > 0`, and finite. -/
def isLength (seconds : UInt64) : Bool := 0 < seconds && seconds < 0x7ff0000000000000

/-- `setFloat32` or `setFloat64`, by the size of the element. -/
def Doubles.float (D : Doubles) (size : Nat) (ticks : UInt64) : Bytes :=
  if size = 4 then Bytes.u32be (D.single ticks).toNat else Bytes.u64be ticks.toNat

/-- The element that is put in. -/
def Doubles.durationElem (D : Doubles) (ticks : UInt64) : Bytes := [0x44, 0x89, 0x88] ++ D.float 8 ticks

/-- Where the size of an element is. -/
def sizeAt (b : Bytes) (e : Elem) : Option Nat := (readId b e.start).map (fun r => e.start + r.2)

/-- The size field of an element that grows, and where it goes. -/
def grownSize (b : Bytes) (e : Elem) (by_ : Nat) : Option (Nat × Bytes) := do
  let at_ ← sizeAt b e
  let size ← sizeVint (e.size + by_) (e.content - at_)
  some (at_, size)

/-- The element is there: its float is overwritten. -/
def overwrite (D : Doubles) (bytes : Bytes) (duration : Elem) (ticks : UInt64) : Option Bytes :=
  if duration.size ≠ 4 ∧ duration.size ≠ 8 then none
  else Buffer.put bytes duration.content (D.float duration.size ticks)

/-- It is not: `Info` grows by it, and so does a segment with a size. -/
def insert (D : Doubles) (bytes : Bytes) (found : Located) (ticks : UInt64) : Option Bytes :=
  if found.hasOffsets then none
  else do
    let elem := D.durationElem ticks
    let (infoSizeAt, infoSize) ← grownSize bytes found.info elem.length
    let out := bytes.take found.info.end_ ++ (elem ++ bytes.drop found.info.end_)
    if found.segment.unknown then Buffer.put out infoSizeAt infoSize
    else
      let (segSizeAt, segSize) ← grownSize bytes found.segment elem.length
      let out ← Buffer.put out infoSizeAt infoSize
      Buffer.put out segSizeAt segSize

def stampWebmDuration (D : Doubles) (bytes : Bytes) (seconds : UInt64) : Bytes :=
  if !isLength seconds then bytes
  else
    match locate bytes with
    | none => bytes
    | some found =>
      let ticks := D.ticks seconds found.scale
      match found.duration with
      | some duration => (overwrite D bytes duration ticks).getD bytes
      | none => (insert D bytes found ticks).getD bytes

end EncedoChat.Webm

/-!
# What was found in a file

The module reads by offsets. Here what it has read is the file taken apart: elements before the segment, elements before
`Info`, and what comes after, read or not.
-/

namespace EncedoChat.Webm

open Ebml

/-! ## One element -/

theorem drop_eq_slice (b : Bytes) {p q : Nat} (h : p ≤ q) : b.drop p = b.slice p q ++ b.drop q := by
  obtain ⟨w, rfl⟩ := Nat.exists_eq_add_of_le h
  rw [Bytes.slice, Nat.add_sub_cancel_left, ← List.drop_drop, List.take_append_drop]

theorem vint_at {b : Bytes} {p max : Nat} {first : UInt8} (hp : b[p]? = some first) (hne : first ≠ 0)
    (hmax : vintWidth first ≤ max) (hfit : p + vintWidth first ≤ b.length) :
    IsVint max (b.slice p (p + vintWidth first)) ∧
      b.slice p (p + vintWidth first) = first :: b.slice (p + 1) (p + vintWidth first) := by
  obtain ⟨hlt, rfl⟩ := List.getElem?_eq_some_iff.mp hp
  have hcons : b.slice p (p + vintWidth b[p]) = b[p] :: b.slice (p + 1) (p + vintWidth b[p]) := by
    obtain ⟨w, hw⟩ := Nat.exists_eq_succ_of_ne_zero (vintWidth_pos b[p]).ne'
    rw [Bytes.slice, Bytes.slice, hw, List.drop_eq_getElem_cons hlt, Nat.add_sub_cancel_left, List.take_succ_cons]
    congr 2
    omega
  refine ⟨⟨_, _, hcons, hne, hmax, ?_⟩, hcons⟩
  rw [Bytes.length_slice b (Nat.le_add_right _ _) hfit, Nat.add_sub_cancel_left]

theorem readId_some {b : Bytes} {p id w : Nat} (h : readId b p = some (id, w)) :
    ∃ v, b.drop p = v ++ b.drop (p + v.length) ∧ IsVint 4 v ∧ Bytes.toNat v = id ∧ v.length = w ∧ p + w ≤ b.length := by
  rw [readId] at h
  cases hp : b[p]? with
  | none => simp [hp] at h
  | some first =>
      simp only [hp] at h
      split at h
      · cases h
      · next hne =>
        split at h
        · cases h
        · next hok =>
          rw [not_or, not_lt, not_lt] at hok
          cases h
          obtain ⟨hv, -⟩ := vint_at hp hne hok.1 hok.2
          have hlen : (b.slice p (p + vintWidth first)).length = vintWidth first := by
            rw [Bytes.length_slice b (Nat.le_add_right _ _) hok.2, Nat.add_sub_cancel_left]
          exact ⟨_, by rw [hlen]; exact drop_eq_slice b (Nat.le_add_right _ _), hv, rfl, hlen, hok.2⟩

theorem readSize_some {b : Bytes} {p size w : Nat} {unknown : Bool} (h : readSize b p = some (size, w, unknown)) :
    ∃ v, b.drop p = v ++ b.drop (p + v.length) ∧ IsVint 8 v ∧ vintSize v = size ∧ isUnknown v = unknown ∧ v.length = w ∧
      p + w ≤ b.length := by
  rw [readSize] at h
  cases hp : b[p]? with
  | none => simp [hp] at h
  | some first =>
      simp only [hp] at h
      split at h
      · cases h
      · next hne =>
        split at h
        · cases h
        · next hok =>
          rw [not_lt] at hok
          cases h
          obtain ⟨hv, hcons⟩ := vint_at hp hne (vintWidth_le hne) hok
          have hlen : (b.slice p (p + vintWidth first)).length = vintWidth first := by
            rw [Bytes.length_slice b (Nat.le_add_right _ _) hok, Nat.add_sub_cancel_left]
          refine ⟨_, by rw [hlen]; exact drop_eq_slice b (Nat.le_add_right _ _), hv, ?_, ?_, hlen, hok⟩
          · rw [hcons]
            rfl
          · rw [hcons]
            rfl

/-- An element and the two fields of its header. -/
structure Reads (b : Bytes) (p limit : Nat) (e : Elem) (id size : Bytes) : Prop where
  drop_start : b.drop p = id ++ (size ++ b.drop e.content)
  id_vint : IsVint 4 id
  size_vint : IsVint 8 size
  num : Bytes.toNat id = e.id
  size_eq : vintSize size = e.size
  unknown : isUnknown size = e.unknown
  start : e.start = p
  content : e.content = p + id.length + size.length
  content_le : e.content ≤ b.length
  end_eq : e.end_ = if e.unknown then limit else e.content + e.size
  end_le : e.end_ ≤ limit

theorem readElem_some {b : Bytes} {p limit : Nat} {e : Elem} (h : readElem b p limit = some e) :
    ∃ id size, Reads b p limit e id size := by
  simp only [readElem, Option.bind_eq_bind, Option.bind_eq_some_iff, Prod.exists] at h
  obtain ⟨idn, w, hid, sizen, w', unknown, hsize, h⟩ := h
  obtain ⟨id, hdrop, hidv, hnum, rfl, -⟩ := readId_some hid
  obtain ⟨size, hdrop', hsizev, hval, hunk, rfl, hle⟩ := readSize_some hsize
  by_cases hend : limit < if unknown then limit else p + id.length + size.length + sizen
  · rw [if_pos hend] at h
    cases h
  · rw [if_neg hend, Option.some.injEq] at h
    subst h
    refine ⟨id, size, ⟨?_, hidv, hsizev, hnum, hval, hunk, rfl, rfl, hle, rfl, not_lt.mp hend⟩⟩
    rw [hdrop, hdrop']

namespace Reads

variable {b id size : Bytes} {p limit : Nat} {e : Elem}

/-- The header and what follows it, up to somewhere. -/
theorem slice_eq (h : Reads b p limit e id size) {q : Nat} (hq : e.content ≤ q) :
    b.slice p q = id ++ (size ++ b.slice e.content q) := by
  have hcontent := h.content
  rw [Bytes.slice, h.drop_start, List.take_append, List.take_of_length_le (by omega), List.take_append,
    List.take_of_length_le (by omega), Bytes.slice]
  congr 3
  omega

theorem content_le_end (h : Reads b p limit e id size) (hk : e.unknown = false) : e.content ≤ e.end_ := by
  rw [h.end_eq, if_neg (by simp [hk])]
  exact Nat.le_add_right _ _

theorem content_le_end' (h : Reads b p b.length e id size) : e.content ≤ e.end_ := by
  cases hu : e.unknown with
  | false => exact h.content_le_end hu
  | true =>
      rw [h.end_eq, if_pos hu]
      exact h.content_le

/-- What it holds is as long as it says, or is all there is. -/
theorem fits (h : Reads b p b.length e id size) :
    if isUnknown size then b.drop e.end_ = [] else (b.slice e.content e.end_).length = vintSize size := by
  have hend := h.end_eq
  rw [h.unknown]
  split
  next hu =>
    rw [if_pos hu] at hend
    rw [hend, List.drop_length]
  next hk =>
    rw [if_neg hk] at hend
    rw [Bytes.length_slice b h.content_le_end' h.end_le, hend, h.size_eq, Nat.add_sub_cancel_left]

/-- As an element with a size. -/
def item (h : Reads b p limit e id size) (hk : e.unknown = false) (hlimit : limit ≤ b.length) : Item where
  id := id
  size := size
  content := b.slice e.content e.end_
  id_vint := h.id_vint
  size_vint := h.size_vint
  known := h.unknown.trans hk
  length_eq := by
    have hend := h.end_eq
    rw [if_neg (by simp [hk])] at hend
    rw [Bytes.length_slice b (h.content_le_end hk) (h.end_le.trans hlimit), h.size_eq]
    omega

theorem start_lt_end (h : Reads b p limit e id size) (hk : e.unknown = false) : p < e.end_ := by
  have hpos := h.id_vint.length_pos
  have hcontent := h.content
  have hend := h.content_le_end hk
  omega

theorem slice_item (h : Reads b p limit e id size) (hk : e.unknown = false) (hlimit : limit ≤ b.length) {q : Nat}
    (hq : e.end_ ≤ q) : b.slice p q = (h.item hk hlimit).bytes ++ b.slice e.end_ q := by
  rw [h.slice_eq ((h.content_le_end hk).trans hq), ← Bytes.slice_append_slice b (h.content_le_end hk) hq]
  simp only [item, Item.bytes, List.append_assoc]

/-- One that runs to the end is all there is. -/
theorem id_of_tree {isMaster : Nat → Bool} (h : Reads b p limit e id size) (hp : p ≤ limit) (hu : e.unknown = true)
    {node : Node} (hnode : node ∈ tree isMaster (b.slice p limit)) {n : Nat} (hn : node.id? = some n) : n = e.id := by
  have hne : b.slice p limit ≠ [] := fun h0 => by simp [h0] at hnode
  cases hte : takeElem (b.slice p limit) with
  | none =>
      rw [tree_of_none hne hte, List.mem_singleton] at hnode
      subst hnode
      cases hn
  | some raw =>
      obtain ⟨heq, hid, hsize, hrest⟩ := takeElem_eq_some.mp hte
      have hdrop := drop_eq_slice b hp
      rw [heq, h.drop_start] at hdrop
      simp only [List.append_assoc] at hdrop
      obtain ⟨rfl, htail⟩ := h.id_vint.unique hid hdrop
      obtain ⟨rfl, -⟩ := h.size_vint.unique hsize htail
      rw [if_pos (h.unknown.trans hu)] at hrest
      rw [tree_of_takeElem hte, hrest, tree_nil, List.mem_singleton] at hnode
      rw [hnode, Node.id?, Raw.node_head] at hn
      cases hn
      exact h.num

end Reads

/-! ## One after another -/

section

variable {b : Bytes} {to_ n p : Nat} {e : Elem} {l r : List Elem} {threw : Bool}

theorem children_cons (h : children b to_ n p = (e :: r, threw)) : p < to_ ∧ readElem b p to_ = some e ∧
    ∃ m, n = m + 1 ∧ if e.id = ID_CLUSTER ∨ e.unknown then r = [] else children b to_ m e.end_ = (r, threw) := by
  cases n with
  | zero => cases h
  | succ m =>
      rw [children] at h
      split at h
      next hlt =>
        cases hread : readElem b p to_ with
        | none => simp [hread] at h
        | some x =>
            simp only [hread] at h
            by_cases hstop : x.id = ID_CLUSTER ∨ x.unknown = true
            · rw [if_pos hstop] at h
              cases h
              exact ⟨hlt, rfl, m, rfl, if_pos hstop ▸ rfl⟩
            · rw [if_neg hstop] at h
              cases h
              refine ⟨hlt, rfl, m, rfl, ?_⟩
              rw [if_neg hstop]
      next => cases h

/-- What was yielded before an element are elements with sizes, none of them a cluster. -/
theorem children_split (hto : to_ ≤ b.length) (h : children b to_ n p = (l ++ e :: r, threw)) :
    ∃ items m, b.slice p e.start = bytesOf items ∧ items.map Item.num = l.map Elem.id ∧ (∀ x ∈ l, x.id ≠ ID_CLUSTER) ∧
      p ≤ e.start ∧ children b to_ m e.start = (e :: r, threw) ∧ (to_ ≤ p + n → to_ ≤ e.start + m) := by
  induction l generalizing n p with
  | nil =>
      obtain ⟨-, hread, -⟩ := children_cons h
      obtain ⟨id, size, hreads⟩ := readElem_some hread
      obtain rfl := hreads.start
      refine ⟨[], n, ?_, rfl, fun x hx => absurd hx List.not_mem_nil, Nat.le_refl _, h, fun hn => hn⟩
      rw [Bytes.slice, Nat.sub_self, List.take_zero]
      rfl
  | cons x l ih =>
      obtain ⟨-, hread, m, rfl, htail⟩ := children_cons h
      obtain ⟨id, size, hreads⟩ := readElem_some hread
      split at htail
      · exact absurd htail (by simp)
      · next hstop =>
        rw [not_or, Bool.not_eq_true] at hstop
        obtain ⟨items, k, hslice, hnum, hcluster, hle, hrest, hfuel⟩ := ih htail
        have hlt := hreads.start_lt_end hstop.2
        refine ⟨hreads.item hstop.2 hto :: items, k, ?_, ?_, ?_, hlt.le.trans hle, hrest, fun hn => hfuel (by omega)⟩
        · rw [hreads.slice_item hstop.2 hto hle, hslice, bytesOf_cons]
        · rw [List.map_cons, List.map_cons, hnum]
          exact congrArg (· :: _) hreads.num
        · exact List.forall_mem_cons.mpr ⟨hstop.1, hcluster⟩

/-- Up to the first cluster nothing is left out. -/
theorem children_scan {isMaster : Nat → Bool} (hto : to_ ≤ b.length) (hn : to_ ≤ p + n)
    (h : children b to_ n p = (l, false)) :
    ∀ node ∈ (tree isMaster (b.slice p to_)).takeWhile (fun node => node.id? ≠ some ID_CLUSTER),
      ∀ id, node.id? = some id → id ∈ l.map Elem.id := by
  induction n generalizing p l with
  | zero =>
      rw [Bytes.slice, Nat.sub_eq_zero_of_le (by omega), List.take_zero]
      exact fun node hnode => absurd hnode List.not_mem_nil
  | succ n ih =>
      rw [children] at h
      split at h
      next hlt =>
        cases hread : readElem b p to_ with
        | none => simp [hread] at h
        | some x =>
            obtain ⟨id, size, hreads⟩ := readElem_some hread
            simp only [hread] at h
            cases hunk : x.unknown with
            | true =>
                rw [if_pos (.inr hunk)] at h
                cases h
                intro node hnode id' hid'
                obtain hid := hreads.id_of_tree hlt.le hunk (List.takeWhile_subset _ hnode) hid'
                rw [hid]
                exact List.mem_singleton_self _
            | false =>
                have hend := hreads.start_lt_end hunk
                rw [hreads.slice_item hunk hto hreads.end_le, tree_item, List.takeWhile_cons]
                have hnode : ((hreads.item hunk hto).node isMaster).id? = some x.id := by
                  rw [Item.node, Node.id?, Raw.node_head]
                  exact congrArg some hreads.num
                by_cases hcluster : x.id = ID_CLUSTER
                · rw [if_neg (by simp [hnode, hcluster])]
                  exact fun node hin => absurd hin List.not_mem_nil
                · rw [if_neg (by simp [hcluster, hunk])] at h
                  cases hrest : children b to_ n x.end_ with
                  | mk es threw =>
                      rw [hrest] at h
                      cases h
                      rw [if_pos (by simp [hnode, hcluster])]
                      refine List.forall_mem_cons.mpr ⟨fun id' hid' => ?_, fun node hin id' hid' => ?_⟩
                      · rw [hnode] at hid'
                        cases hid'
                        exact List.mem_cons_self
                      · exact List.mem_cons_of_mem _ (ih (by omega) hrest node hin id' hid')
      next hge =>
        rw [Bytes.slice, Nat.sub_eq_zero_of_le (by omega), List.take_zero]
        exact fun node hnode => absurd hnode List.not_mem_nil

end

/-! ## The place of `Info` in a tree -/

/-- Which elements have elements in them. -/
structure Schema where
  isMaster : Nat → Bool
  segment : isMaster ID_SEGMENT = true
  info : isMaster ID_INFO = true
  duration : isMaster ID_DURATION = false

def Schema.tree (S : Schema) (b : Bytes) : List Node := Ebml.tree S.isMaster b

/-- Those up to the first cluster. -/
def ahead (ns : List Node) : List Node := ns.takeWhile (fun node => node.id? ≠ some ID_CLUSTER)

/-- What is around the children of `Info`: the last one ahead of the first cluster of the first segment. -/
@[ext] structure Site where
  before : List Node
  segment : Head
  pre : List Node
  info : Head
  post : List Node
  after : List Node
  segment_id : segment.id = ID_SEGMENT
  info_id : info.id = ID_INFO
  first : ∀ node ∈ before, node.id? ≠ some ID_SEGMENT
  early : ∀ node ∈ pre, node.id? ≠ some ID_CLUSTER
  last : ∀ node ∈ ahead post, node.id? ≠ some ID_INFO

def Site.fill (s : Site) (children : List Node) : List Node :=
  s.before ++ .master s.segment (s.pre ++ .master s.info children :: s.post) :: s.after

/-- The first of a kind is in one place. -/
theorem first_unique {α : Type} {p : α → Prop} {l l' r r' : List α} {x x' : α} (hl : ∀ y ∈ l, ¬ p y) (hl' : ∀ y ∈ l', ¬ p y)
    (hx : p x) (hx' : p x') (h : l ++ x :: r = l' ++ x' :: r') : l = l' ∧ x = x' ∧ r = r' := by
  induction l generalizing l' with
  | nil =>
      cases l' with
      | nil => exact ⟨rfl, (List.cons.inj h).1, (List.cons.inj h).2⟩
      | cons y l' => exact absurd ((List.cons.inj h).1 ▸ hx) (hl' y List.mem_cons_self)
  | cons y l ih =>
      cases l' with
      | nil => exact absurd ((List.cons.inj h).1 ▸ hx') (hl y List.mem_cons_self)
      | cons y' l' =>
          obtain ⟨hy, htail⟩ := List.cons.inj h
          obtain ⟨hll, hxx, hrr⟩ := ih (fun z hz => hl z (List.mem_cons_of_mem _ hz))
            (fun z hz => hl' z (List.mem_cons_of_mem _ hz)) htail
          exact ⟨by rw [hy, hll], hxx, hrr⟩

/-- So is the last of a kind ahead of the first cluster. -/
theorem last_unique {l l' r r' : List Node} {x x' : Node} (hl : ∀ y ∈ l, y.id? ≠ some ID_CLUSTER)
    (hl' : ∀ y ∈ l', y.id? ≠ some ID_CLUSTER) (hr : ∀ y ∈ ahead r, y.id? ≠ some ID_INFO)
    (hr' : ∀ y ∈ ahead r', y.id? ≠ some ID_INFO) (hx : x.id? = some ID_INFO) (hx' : x'.id? = some ID_INFO)
    (h : l ++ x :: r = l' ++ x' :: r') : l = l' ∧ x = x' ∧ r = r' := by
  have hahead : ∀ (m : List Node) (y : Node) (t : List Node), (∀ z ∈ m, z.id? ≠ some ID_CLUSTER) →
      y.id? = some ID_INFO → y ∈ ahead (m ++ y :: t) := by
    intro m y t hm hy
    rw [ahead, List.takeWhile_append_of_pos (by simpa using hm), List.takeWhile_cons, if_pos (by rw [hy]; decide)]
    exact List.mem_append_right _ List.mem_cons_self
  induction l generalizing l' with
  | nil =>
      cases l' with
      | nil => exact ⟨rfl, (List.cons.inj h).1, (List.cons.inj h).2⟩
      | cons y l' =>
          obtain ⟨-, rfl⟩ := List.cons.inj h
          exact absurd hx' (hr x' (hahead l' x' r' (fun z hz => hl' z (List.mem_cons_of_mem _ hz)) hx'))
  | cons y l ih =>
      cases l' with
      | nil =>
          obtain ⟨-, rfl⟩ := List.cons.inj h
          exact absurd hx (hr' x (hahead l x r (fun z hz => hl z (List.mem_cons_of_mem _ hz)) hx))
      | cons y' l' =>
          obtain ⟨hy, htail⟩ := List.cons.inj h
          obtain ⟨hll, hxx, hrr⟩ := ih (fun z hz => hl z (List.mem_cons_of_mem _ hz))
            (fun z hz => hl' z (List.mem_cons_of_mem _ hz)) htail
          exact ⟨by rw [hy, hll], hxx, hrr⟩

/-- A tree has one such place. -/
theorem Site.fill_inj {s s' : Site} {ns ns' : List Node} (h : s.fill ns = s'.fill ns') : s = s' ∧ ns = ns' := by
  obtain ⟨hbefore, hseg, hafter⟩ := first_unique (p := fun node => node.id? = some ID_SEGMENT) s.first s'.first
    (congrArg some s.segment_id) (congrArg some s'.segment_id) h
  obtain ⟨hhead, hinner⟩ := Node.master.inj hseg
  have hinfo_id : ∀ (t : Site) (ms : List Node), (Node.master t.info ms).id? = some ID_INFO :=
    fun t _ => congrArg some t.info_id
  obtain ⟨hpre, hinfo, hpost⟩ := last_unique s.early s'.early s.last s'.last (hinfo_id s ns) (hinfo_id s' ns') hinner
  obtain ⟨hihead, hns⟩ := Node.master.inj hinfo
  exact ⟨Site.ext hbefore hhead hpre hihead hpost hafter, hns⟩

/-! ## The file taken apart -/

/-- What a segment with such an `Info` holds. -/
def inner (pre : List Item) (infoId infoSize content post : Bytes) : Bytes :=
  bytesOf pre ++ (infoId ++ (infoSize ++ (content ++ post)))

structure Layout (S : Schema) where
  top : List Item
  segId : Bytes
  segSize : Bytes
  pre : List Item
  infoId : Bytes
  infoSize : Bytes
  content : Bytes
  post : Bytes
  rest : Bytes
  segId_vint : IsVint 4 segId
  segSize_vint : IsVint 8 segSize
  infoId_vint : IsVint 4 infoId
  infoSize_vint : IsVint 8 infoSize
  segId_eq : Bytes.toNat segId = ID_SEGMENT
  infoId_eq : Bytes.toNat infoId = ID_INFO
  known : isUnknown infoSize = false
  length_eq : content.length = vintSize infoSize
  seg_eq : if isUnknown segSize then rest = [] else (inner pre infoId infoSize content post).length = vintSize segSize
  first : ∀ e ∈ top, e.num ≠ ID_SEGMENT
  early : ∀ e ∈ pre, e.num ≠ ID_CLUSTER
  last : ∀ node ∈ ahead (S.tree post), node.id? ≠ some ID_INFO

namespace Layout

variable {S : Schema} (L : Layout S)

def bytes : Bytes :=
  bytesOf L.top ++ (L.segId ++ (L.segSize ++ (inner L.pre L.infoId L.infoSize L.content L.post ++ L.rest)))

theorem id?_item (e : Item) : (e.node S.isMaster).id? = some e.num := by
  rw [Item.node, Node.id?, Raw.node_head]
  rfl

theorem first_node : ∀ node ∈ L.top.map (Item.node S.isMaster), node.id? ≠ some ID_SEGMENT := by
  intro node hnode
  obtain ⟨e, he, rfl⟩ := List.mem_map.mp hnode
  rw [id?_item]
  exact fun h => L.first e he (Option.some.inj h)

theorem early_node : ∀ node ∈ L.pre.map (Item.node S.isMaster), node.id? ≠ some ID_CLUSTER := by
  intro node hnode
  obtain ⟨e, he, rfl⟩ := List.mem_map.mp hnode
  rw [id?_item]
  exact fun h => L.early e he (Option.some.inj h)

/-- Its place in the tree. -/
def site : Site where
  before := L.top.map (Item.node S.isMaster)
  segment := ⟨ID_SEGMENT, L.segSize.length, isUnknown L.segSize⟩
  pre := L.pre.map (Item.node S.isMaster)
  info := ⟨ID_INFO, L.infoSize.length, false⟩
  post := S.tree L.post
  after := if isUnknown L.segSize then [] else S.tree L.rest
  segment_id := rfl
  info_id := rfl
  first := L.first_node
  early := L.early_node
  last := L.last

theorem tree_inner : S.tree (inner L.pre L.infoId L.infoSize L.content L.post) =
    L.site.pre ++ .master L.site.info (S.tree L.content) :: L.site.post := by
  have hte : takeElem (L.infoId ++ (L.infoSize ++ (L.content ++ L.post))) =
      some ⟨L.infoId, L.infoSize, L.content, L.post⟩ := by
    refine takeElem_eq_some.mpr ⟨rfl, L.infoId_vint, L.infoSize_vint, ?_⟩
    rw [if_neg (by simp [L.known])]
    exact L.length_eq
  rw [inner, Schema.tree, tree_items, tree_of_takeElem hte, Raw.node, Raw.head, L.infoId_eq, if_pos S.info, L.known]
  rfl

/-- The tree of the file is that of the children of `Info` in their place. -/
theorem tree_bytes : S.tree L.bytes = L.site.fill (S.tree L.content) := by
  have hnode : ∀ rest, (Raw.mk L.segId L.segSize (inner L.pre L.infoId L.infoSize L.content L.post) rest).node S.isMaster =
      .master L.site.segment (L.site.pre ++ .master L.site.info (S.tree L.content) :: L.site.post) := by
    intro rest
    rw [Raw.node, Raw.head, L.segId_eq, if_pos S.segment, ← L.tree_inner]
    rfl
  have hseg := L.seg_eq
  rw [bytes, Schema.tree, tree_items, Site.fill]
  split at hseg
  next hu =>
    rw [hseg, List.append_nil, tree_unknown L.segId_vint L.segSize_vint hu, hnode]
    simp only [site, hu, if_true]
  next hk =>
    have hte : takeElem (L.segId ++ (L.segSize ++ (inner L.pre L.infoId L.infoSize L.content L.post ++ L.rest))) =
        some ⟨L.segId, L.segSize, inner L.pre L.infoId L.infoSize L.content L.post, L.rest⟩ := by
      refine takeElem_eq_some.mpr ⟨rfl, L.segId_vint, L.segSize_vint, ?_⟩
      rw [if_neg hk]
      exact hseg
    rw [tree_of_takeElem hte, hnode]
    simp only [site, hk]
    rfl

/-- Where its parts are. -/
structure At (b : Bytes) (found : Located) : Prop where
  bytes_eq : L.bytes = b
  segment_start : found.segment.start = (bytesOf L.top).length
  segment_content : found.segment.content = found.segment.start + L.segId.length + L.segSize.length
  segment_size : found.segment.size = vintSize L.segSize
  segment_unknown : found.segment.unknown = isUnknown L.segSize
  info_start : found.info.start = found.segment.content + (bytesOf L.pre).length
  info_content : found.info.content = found.info.start + L.infoId.length + L.infoSize.length
  info_size : found.info.size = L.content.length
  info_end : found.info.end_ = found.info.content + L.content.length
  duration : found.duration = lastWith ID_DURATION (childrenOf b found.info.content found.info.end_).1

end Layout

theorem lastWith_some {id : Nat} {es : List Elem} {e : Elem} (h : lastWith id es = some e) :
    ∃ l r, es = l ++ e :: r ∧ e.id = id ∧ ∀ y ∈ r, y.id ≠ id := by
  obtain ⟨ys, hys⟩ := List.getLast?_eq_some_iff.mp h
  obtain ⟨l, r', rfl, -, hr'⟩ := List.filter_eq_append_iff.mp hys
  obtain ⟨m, r, rfl, -, he, hr⟩ := List.filter_eq_cons_iff.mp hr'
  refine ⟨l ++ m, r, by rw [List.append_assoc], of_decide_eq_true he, fun y hy => ?_⟩
  simpa using List.filter_eq_nil_iff.mp hr y hy

/-- What is found in a file takes it apart. -/
theorem layout_of_locate (S : Schema) {b : Bytes} {found : Located} (h : locate b = some found) :
    ∃ L : Layout S, L.At b found := by
  simp only [locate, Option.bind_eq_bind, Option.bind_eq_some_iff] at h
  obtain ⟨segment, hfind, h⟩ := h
  split at h
  · cases h
  next hthrew =>
  obtain ⟨info, hinfo, h⟩ := Option.bind_eq_some_iff.mp h
  split at h
  · cases h
  next hknown =>
  split at h
  · cases h
  next =>
  -- the segment, after elements that are none
  obtain ⟨hsegId, l, r, hes, hl⟩ := List.find?_eq_some_iff_append.mp hfind
  obtain ⟨top, m, htop, htopNum, -, -, hsegRun, -⟩ :=
    children_split (Nat.le_refl _) (show childrenOf b 0 b.length = (l ++ segment :: r, _) from Prod.ext hes rfl)
  obtain ⟨segId, segSize, hseg⟩ := readElem_some (children_cons hsegRun).2.1
  -- the last `Info` of those read in it
  obtain ⟨l', r', hes', hinfoId, hlast⟩ := lastWith_some hinfo
  obtain ⟨pre, m', hpre, hpreNum, hpreCluster, hpreLe, hinfoRun, hfuel⟩ := children_split hseg.end_le
    (show childrenOf b segment.content segment.end_ = (l' ++ info :: r', false) from
      Prod.ext hes' (Bool.not_eq_true _ ▸ hthrew))
  obtain ⟨-, hinfoRead, k, rfl, htail⟩ := children_cons hinfoRun
  obtain ⟨infoId, infoSize, hread⟩ := readElem_some hinfoRead
  rw [Bool.not_eq_true] at hknown
  rw [if_neg (by rw [hinfoId, hknown]; decide)] at htail
  have hend := hread.content_le_end hknown
  have hlt := hread.start_lt_end hknown
  have hsegEnd := hseg.content_le_end'
  have hinner : b.slice segment.content segment.end_ =
      inner pre infoId infoSize (b.slice info.content info.end_) (b.slice info.end_ segment.end_) := by
    rw [← Bytes.slice_append_slice b hpreLe (hlt.le.trans hread.end_le), hpre,
      hread.slice_item hknown hseg.end_le hread.end_le]
    simp only [inner, Item.bytes, Reads.item, List.append_assoc]
  let L : Layout S := {
    top := top
    segId := segId
    segSize := segSize
    pre := pre
    infoId := infoId
    infoSize := infoSize
    content := b.slice info.content info.end_
    post := b.slice info.end_ segment.end_
    rest := b.drop segment.end_
    segId_vint := hseg.id_vint
    segSize_vint := hseg.size_vint
    infoId_vint := hread.id_vint
    infoSize_vint := hread.size_vint
    segId_eq := hseg.num.trans (of_decide_eq_true hsegId)
    infoId_eq := hread.num.trans hinfoId
    known := hread.unknown.trans hknown
    length_eq := (hread.item hknown hseg.end_le).length_eq
    seg_eq := by
      rw [← hinner]
      exact hseg.fits
    first := fun e he => by
      obtain ⟨x, hx, hxe⟩ := List.mem_map.mp (htopNum ▸ List.mem_map_of_mem he : e.num ∈ l.map Elem.id)
      rw [← hxe]
      simpa using hl x hx
    early := fun e he => by
      obtain ⟨x, hx, hxe⟩ := List.mem_map.mp (hpreNum ▸ List.mem_map_of_mem he : e.num ∈ l'.map Elem.id)
      rw [← hxe]
      exact hpreCluster x hx
    last := fun node hnode hid => by
      obtain ⟨x, hx, hxid⟩ := List.mem_map.mp
        (children_scan hseg.end_le (by have := hfuel (Nat.le_add_left _ _); omega) htail node hnode ID_INFO hid)
      exact hlast x hx hxid }
  have hinfoLen : (b.slice info.content info.end_).length = info.end_ - info.content :=
    Bytes.length_slice b hend (hread.end_le.trans hseg.end_le)
  have hsegStart : segment.start ≤ b.length := (children_cons hsegRun).1.le
  have htopLen := congrArg List.length htop
  rw [Bytes.length_slice b (Nat.zero_le _) hsegStart, Nat.sub_zero] at htopLen
  have hpreLen := congrArg List.length hpre
  rw [Bytes.length_slice b hpreLe ((children_cons hinfoRun).1.le.trans hseg.end_le)] at hpreLen
  have hbytes : L.bytes = b := by
    rw [Layout.bytes, ← hinner, ← htop, ← drop_eq_slice b hsegEnd, ← hseg.drop_start, ← drop_eq_slice b (Nat.zero_le _)]
    rfl
  have hinfoStart : info.start = segment.content + (bytesOf pre).length := by omega
  have hinfoEnd : info.end_ = info.content + (b.slice info.content info.end_).length := by omega
  cases h
  exact ⟨L, hbytes, htopLen, hseg.content, hseg.size_eq.symm, hseg.unknown.symm, hinfoStart, hread.content,
    hread.size_eq.symm.trans (hread.item hknown hseg.end_le).length_eq.symm, hinfoEnd, rfl⟩

end EncedoChat.Webm
