import EncedoChat.Webm.Layout

/-!
# Stamping a recording

What the stamp may do to a file, as a tree and as bytes, and exactly when it does no more. It looks for offsets ahead of
the first cluster only, and `Cues` come after.
-/

namespace EncedoChat.Webm

open Ebml

variable {S : Schema} {D : Doubles}

/-- Something in it stores an offset. -/
def Stores (t : List Node) : Prop := ID_SEEKHEAD ∈ idsOf t ∨ ID_CUES ∈ idsOf t

instance (t : List Node) : Decidable (Stores t) :=
  inferInstanceAs (Decidable (_ ∨ _))

/-- What the stamp may make of a file. -/
inductive Stamped (S : Schema) (D : Doubles) (bytes : Bytes) (seconds : UInt64) (out : Bytes) : Prop
  | unchanged : out = bytes → Stamped S D bytes seconds out
  /-- a `Duration` of `Info` has other bytes -/
  | replaced {found : Located} {site : Site} {l r : List Node} {width : Nat} {old : Bytes} :
      locate bytes = some found → (old.length = 4 ∨ old.length = 8) →
      S.tree bytes = site.fill (l ++ .leaf ⟨ID_DURATION, width, false⟩ old :: r) →
      S.tree out = site.fill
        (l ++ .leaf ⟨ID_DURATION, width, false⟩ (D.float old.length (D.ticks seconds found.scale)) :: r) →
      (∃ a c, bytes = a ++ (old ++ c) ∧ out = a ++ (D.float old.length (D.ticks seconds found.scale) ++ c)) →
      Stamped S D bytes seconds out
  /-- `Info` has one more, and the two sizes are adjusted; nothing stored an offset -/
  | inserted {found : Located} {site : Site} {children : List Node} :
      locate bytes = some found → ¬ Stores (S.tree bytes) →
      S.tree bytes = site.fill children →
      S.tree out = site.fill
        (children ++ [.leaf ⟨ID_DURATION, 1, false⟩ (D.float 8 (D.ticks seconds found.scale))]) →
      (∃ a segSize segSize' m infoSize infoSize' c, segSize'.length = segSize.length ∧
        infoSize'.length = infoSize.length ∧ (site.segment.unknown = true → segSize' = segSize) ∧
        ∃ content, bytes = a ++ (segSize ++ (m ++ (infoSize ++ (content ++ c)))) ∧
          out = a ++ (segSize' ++ (m ++ (infoSize' ++ (content ++
            (D.durationElem (D.ticks seconds found.scale) ++ c)))))) →
      Stamped S D bytes seconds out

/-- The sizes have room for the element. -/
def HasRoom (b : Bytes) (found : Located) : Prop :=
  (grownSize b found.info 11).isSome ∧ (found.segment.unknown = true ∨ (grownSize b found.segment 11).isSome)

/-- A file that would be grown shows its offsets where they are looked for, or has none, and its `Info` is made of
elements with sizes. -/
def Ready (S : Schema) (b : Bytes) : Prop :=
  ∀ found, locate b = some found → found.duration = none → HasRoom b found → found.hasOffsets = true ∨
    (¬ Stores (S.tree b) ∧ Whole (b.slice found.info.content found.info.end_))

/-! ## Another header and content in the same place -/

namespace Layout

variable (L : Layout S)

/-- Size fields of the same width for another content. -/
structure Fits (segSize infoSize content : Bytes) : Prop where
  seg_vint : IsVint 8 segSize
  seg_length : segSize.length = L.segSize.length
  seg_unknown : isUnknown segSize = isUnknown L.segSize
  seg_size : isUnknown L.segSize = false →
    vintSize segSize + L.content.length = vintSize L.segSize + content.length
  info_vint : IsVint 8 infoSize
  info_length : infoSize.length = L.infoSize.length
  info_known : isUnknown infoSize = false
  info_size : content.length = vintSize infoSize

variable {L} {segSize infoSize content : Bytes}

theorem Fits.seg_eq (h : L.Fits segSize infoSize content) : if isUnknown segSize then L.rest = []
    else (inner L.pre L.infoId infoSize content L.post).length = vintSize segSize := by
  have hseg := L.seg_eq
  rw [h.seg_unknown]
  split at hseg
  next hu =>
    rw [if_pos hu]
    exact hseg
  next hk =>
    have hsize := h.seg_size (by simpa using hk)
    have hinfo := h.info_length
    rw [if_neg hk]
    simp only [inner, List.length_append] at hseg ⊢
    omega

def edit (L : Layout S) (h : L.Fits segSize infoSize content) : Layout S where
  top := L.top
  segId := L.segId
  segSize := segSize
  pre := L.pre
  infoId := L.infoId
  infoSize := infoSize
  content := content
  post := L.post
  rest := L.rest
  segId_vint := L.segId_vint
  segSize_vint := h.seg_vint
  infoId_vint := L.infoId_vint
  infoSize_vint := h.info_vint
  segId_eq := L.segId_eq
  infoId_eq := L.infoId_eq
  known := h.info_known
  length_eq := h.info_size
  seg_eq := h.seg_eq
  first := L.first
  early := L.early
  last := L.last

/-- Nothing else in the tree is another. -/
theorem tree_edit (h : L.Fits segSize infoSize content) : S.tree (L.edit h).bytes = L.site.fill (S.tree content) := by
  have hsite : (L.edit h).site = L.site := by
    refine Site.ext rfl ?_ rfl ?_ rfl ?_
    · simp only [site, edit, h.seg_length, h.seg_unknown]
    · simp only [site, edit, h.info_length]
    · simp only [site, edit, h.seg_unknown]
  rw [tree_bytes, hsite]
  rfl

/-- Up to the content of `Info`, and from there. -/
def front (L : Layout S) : Bytes := bytesOf L.top ++ (L.segId ++ (L.segSize ++ (bytesOf L.pre ++ (L.infoId ++ L.infoSize))))

def back (L : Layout S) : Bytes := L.post ++ L.rest

theorem bytes_front (L : Layout S) : L.bytes = L.front ++ (L.content ++ L.back) := by
  simp only [bytes, front, back, inner, List.append_assoc]

namespace At

variable {b : Bytes} {found : Located}

theorem length_front (h : L.At b found) : found.info.content = L.front.length := by
  have h₁ := h.info_content
  have h₂ := h.info_start
  have h₃ := h.segment_content
  have h₄ := h.segment_start
  simp only [front, List.length_append]
  omega

theorem slice_content (h : L.At b found) : b.slice found.info.content found.info.end_ = L.content := by
  rw [← h.bytes_eq, L.bytes_front]
  exact Bytes.slice_mid _ _ _ h.length_front.symm h.info_end.symm

theorem sizeAt_eq {e : Elem} {id r : Bytes} (hv : IsVint 4 id) (hdrop : b.drop e.start = id ++ r) {q : Nat}
    (hq : sizeAt b e = some q) : q = e.start + id.length := by
  obtain ⟨⟨n, w⟩, hid, rfl⟩ := Option.map_eq_some_iff.mp hq
  obtain ⟨v, hdrop', hv', -, rfl, -⟩ := readId_some hid
  rw [hdrop] at hdrop'
  rw [(hv.unique hv' hdrop').1]

/-- Where the size of `Info` stands. -/
theorem sizeAt_info (h : L.At b found) {q : Nat} (hq : sizeAt b found.info = some q) :
    q = found.info.start + L.infoId.length := by
  refine sizeAt_eq L.infoId_vint (r := L.infoSize ++ (L.content ++ L.back)) ?_ hq
  have hsplit : L.bytes = (bytesOf L.top ++ (L.segId ++ (L.segSize ++ bytesOf L.pre))) ++
      (L.infoId ++ (L.infoSize ++ (L.content ++ L.back))) := by
    simp only [bytes_front, front, List.append_assoc]
  have hlen : found.info.start = (bytesOf L.top ++ (L.segId ++ (L.segSize ++ bytesOf L.pre))).length := by
    have h₂ := h.info_start
    have h₃ := h.segment_content
    have h₄ := h.segment_start
    simp only [List.length_append]
    omega
  rw [← h.bytes_eq, hlen, hsplit, List.drop_left]

/-- And that of the segment. -/
theorem sizeAt_segment (h : L.At b found) {q : Nat} (hq : sizeAt b found.segment = some q) :
    q = found.segment.start + L.segId.length := by
  refine sizeAt_eq L.segId_vint (r := L.segSize ++ (inner L.pre L.infoId L.infoSize L.content L.post ++ L.rest)) ?_ hq
  rw [← h.bytes_eq, h.segment_start, bytes, List.drop_left]

end At

/-! ## The element put in -/

theorem grownSize_some {b : Bytes} {e : Elem} {n q : Nat} {v : Bytes} (h : grownSize b e n = some (q, v)) :
    sizeAt b e = some q ∧ 1 ≤ e.content - q ∧ e.content - q ≤ 8 ∧ e.size + n < 2 ^ (7 * (e.content - q)) - 1 ∧
      v = vint (e.content - q) (e.size + n) := by
  simp only [grownSize, Option.bind_eq_bind, Option.bind_eq_some_iff, Option.some.injEq, Prod.mk.injEq] at h
  obtain ⟨q', hq', v', hv', rfl, rfl⟩ := h
  rw [sizeVint] at hv'
  split at hv'
  · cases hv'
  next hw =>
    split at hv'
    · cases hv'
    next hlt =>
      cases hv'
      exact ⟨hq', by omega, by omega, not_le.mp hlt, rfl⟩

theorem length_durationElem (D : Doubles) (ticks : UInt64) : (D.durationElem ticks).length = 11 := by
  rw [Doubles.durationElem, Doubles.float, if_neg (by decide), List.length_append, Bytes.u64be, Bytes.length_ofNat]
  rfl

/-- The file with the element at the end of `Info`. -/
theorem insert_some {L : Layout S} {b out : Bytes} {found : Located} {ticks : UInt64} (hL : L.At b found)
    (h : insert D b found ticks = some out) : found.hasOffsets = false ∧ ∃ segSize infoSize,
      ∃ hfit : L.Fits segSize infoSize (L.content ++ D.durationElem ticks),
        out = (L.edit hfit).bytes ∧ (found.segment.unknown = true → segSize = L.segSize) := by
  rw [insert] at h
  split at h
  · cases h
  next hoffsets =>
  refine ⟨Bool.not_eq_true _ ▸ hoffsets, ?_⟩
  simp only [Option.bind_eq_bind, Option.bind_eq_some_iff, Prod.exists, length_durationElem] at h
  obtain ⟨q, infoSize, hinfo, h⟩ := h
  obtain ⟨hq, hw, hw8, hlt, rfl⟩ := grownSize_some hinfo
  obtain rfl := hL.sizeAt_info hq
  have hwidth : found.info.content - (found.info.start + L.infoId.length) = L.infoSize.length := by
    have h₁ := hL.info_content
    omega
  rw [hwidth, hL.info_size] at hlt h
  rw [hwidth] at hw hw8
  obtain ⟨hinfoVint, hinfoLength, hinfoSize, hinfoKnown⟩ := vint_ok hw hw8 hlt
  have hcontent : (L.content ++ D.durationElem ticks).length = L.content.length + 11 := by
    rw [List.length_append, length_durationElem]
  -- the three `set`s that make room, and the one for the size of `Info`
  have hgap : b.take found.info.end_ ++ (D.durationElem ticks ++ b.drop found.info.end_) =
      (bytesOf L.top ++ (L.segId ++ (L.segSize ++ (bytesOf L.pre ++ L.infoId)))) ++
        (L.infoSize ++ ((L.content ++ D.durationElem ticks) ++ L.back)) := by
    have hend : found.info.end_ = (L.front ++ L.content).length := by
      rw [List.length_append, ← hL.length_front, hL.info_end]
    have hb : b = (L.front ++ L.content) ++ L.back := by rw [← hL.bytes_eq, L.bytes_front, List.append_assoc]
    rw [hend, hb, List.take_left, List.drop_left]
    simp only [front, List.append_assoc]
  have hat : found.info.start + L.infoId.length =
      (bytesOf L.top ++ (L.segId ++ (L.segSize ++ (bytesOf L.pre ++ L.infoId)))).length := by
    have h₂ := hL.info_start
    have h₃ := hL.segment_content
    have h₄ := hL.segment_start
    simp only [List.length_append]
    omega
  rw [hgap, Buffer.put_mid _ _ hat hinfoLength] at h
  by_cases hu : found.segment.unknown = true
  · rw [if_pos hu] at h
    have hno : isUnknown L.segSize ≠ false := by
      rw [← hL.segment_unknown, hu]
      exact Bool.noConfusion
    have hfit : L.Fits L.segSize (vint L.infoSize.length (L.content.length + 11)) (L.content ++ D.durationElem ticks) :=
      ⟨L.segSize_vint, rfl, rfl, fun hk => absurd hk hno, hinfoVint, hinfoLength, hinfoKnown,
        hcontent.trans hinfoSize.symm⟩
    cases h
    refine ⟨L.segSize, _, hfit, ?_, fun _ => rfl⟩
    simp only [bytes_front, front, back, edit, List.append_assoc]
  · rw [if_neg hu] at h
    obtain ⟨⟨q, segSize⟩, hseg, h⟩ := Option.bind_eq_some_iff.mp h
    obtain ⟨hq, hw, hw8, hlt, rfl⟩ := grownSize_some hseg
    obtain rfl := hL.sizeAt_segment hq
    have hwidth : found.segment.content - (found.segment.start + L.segId.length) = L.segSize.length := by
      have h₁ := hL.segment_content
      omega
    rw [hwidth, hL.segment_size] at hlt h
    rw [hwidth] at hw hw8
    obtain ⟨hsegVint, hsegLength, hsegSize, hsegKnown⟩ := vint_ok hw hw8 hlt
    have hk : isUnknown L.segSize = false := by
      rw [← hL.segment_unknown]
      exact Bool.not_eq_true _ ▸ hu
    have hfit : L.Fits (vint L.segSize.length (vintSize L.segSize + 11)) (vint L.infoSize.length (L.content.length + 11))
        (L.content ++ D.durationElem ticks) :=
      ⟨hsegVint, hsegLength, hsegKnown.trans hk.symm, fun _ => by omega, hinfoVint, hinfoLength, hinfoKnown,
        hcontent.trans hinfoSize.symm⟩
    have hsplit : (bytesOf L.top ++ (L.segId ++ (L.segSize ++ (bytesOf L.pre ++ L.infoId)))) ++
        (vint L.infoSize.length (L.content.length + 11) ++ ((L.content ++ D.durationElem ticks) ++ L.back)) =
        (bytesOf L.top ++ L.segId) ++ (L.segSize ++ (bytesOf L.pre ++ (L.infoId ++
          (vint L.infoSize.length (L.content.length + 11) ++ ((L.content ++ D.durationElem ticks) ++ L.back))))) := by
      simp only [List.append_assoc]
    have hat : found.segment.start + L.segId.length = (bytesOf L.top ++ L.segId).length := by
      rw [List.length_append, hL.segment_start]
    have hput := Buffer.put_mid (bytesOf L.top ++ L.segId) (bytesOf L.pre ++ (L.infoId ++
      (vint L.infoSize.length (L.content.length + 11) ++ ((L.content ++ D.durationElem ticks) ++ L.back)))) hat hsegLength
    rw [← hsplit] at hput
    cases hput.symm.trans h
    refine ⟨_, _, hfit, ?_, fun hunk => absurd hunk hu⟩
    simp only [bytes_front, front, back, edit, List.append_assoc]

/-! ## The element overwritten -/

theorem length_float (D : Doubles) {size : Nat} (h : size = 4 ∨ size = 8) (ticks : UInt64) :
    (D.float size ticks).length = size := by
  rcases h with rfl | rfl
  · exact Bytes.length_ofNat 4 _
  · exact Bytes.length_ofNat 8 _

/-- A sized element among others, by its parts. -/
theorem tree_leaf (S : Schema) (items : List Item) {id size : Bytes} (hid : IsVint 4 id) (hsize : IsVint 8 size)
    (hk : isUnknown size = false) (hnum : Bytes.toNat id = ID_DURATION) {content : Bytes} (rest : Bytes)
    (hlen : content.length = vintSize size) : S.tree (bytesOf items ++ (id ++ (size ++ (content ++ rest)))) =
      items.map (Item.node S.isMaster) ++ .leaf ⟨ID_DURATION, size.length, false⟩ content :: S.tree rest := by
  have hte : takeElem (id ++ (size ++ (content ++ rest))) = some ⟨id, size, content, rest⟩ := by
    refine takeElem_eq_some.mpr ⟨rfl, hid, hsize, ?_⟩
    rw [if_neg (by simp [hk])]
    exact hlen
  rw [Schema.tree, tree_items, tree_of_takeElem hte, Raw.node, Raw.head, hnum, hk,
    if_neg (by rw [S.duration]; exact Bool.false_ne_true)]
  rfl

/-- The file with other bytes in the `Duration` of `Info`. -/
theorem overwrite_some {L : Layout S} {b out : Bytes} {found : Located} {d : Elem} {ticks : UInt64} (hL : L.At b found)
    (hd : found.duration = some d) (h : overwrite D b d ticks = some out) : ∃ l r width old, (old.length = 4 ∨ old.length = 8) ∧
      S.tree L.content = l ++ .leaf ⟨ID_DURATION, width, false⟩ old :: r ∧
      S.tree out = L.site.fill (l ++ .leaf ⟨ID_DURATION, width, false⟩ (D.float old.length ticks) :: r) ∧
      ∃ a c, b = a ++ (old ++ c) ∧ out = a ++ (D.float old.length ticks ++ c) := by
  rw [overwrite] at h
  split at h
  · cases h
  next hsize =>
  rw [not_and_or, not_not, not_not] at hsize
  rw [hL.duration] at hd
  obtain ⟨l, r, hes, hid, -⟩ := lastWith_some hd
  have hlen : b.length = L.front.length + (L.content.length + L.back.length) := by
    rw [← hL.bytes_eq, L.bytes_front, List.length_append, List.length_append]
  have hend : found.info.end_ ≤ b.length := by
    rw [hL.info_end, hL.length_front, hlen]
    omega
  obtain ⟨items, m, hitems, -, -, hle, hrun, -⟩ := children_split hend
    (show childrenOf b found.info.content found.info.end_ = (l ++ d :: r, _) from Prod.ext hes rfl)
  obtain ⟨hlt, hread, -⟩ := children_cons hrun
  obtain ⟨id, size, hreads⟩ := readElem_some hread
  have hk : d.unknown = false := by
    cases hu : d.unknown with
    | false => rfl
    | true =>
        have hbig := le_vintSize_unknown hreads.size_vint (hreads.unknown.trans hu)
        rw [hreads.size_eq] at hbig
        omega
  have hold : (b.slice d.content d.end_).length = d.size :=
    (hreads.item hk hend).length_eq.trans hreads.size_eq
  have hcontent : L.content = bytesOf items ++ (id ++ (size ++ (b.slice d.content d.end_ ++ b.slice d.end_ found.info.end_))) := by
    rw [← hL.slice_content, ← Bytes.slice_append_slice b hle hlt.le, hitems, hreads.slice_item hk hend hreads.end_le]
    simp only [Item.bytes, Reads.item, List.append_assoc]
  have hnew : (D.float d.size ticks).length = (b.slice d.content d.end_).length := (length_float D hsize ticks).trans hold.symm
  have hfit : L.Fits L.segSize L.infoSize (bytesOf items ++ (id ++ (size ++ (D.float d.size ticks ++
      b.slice d.end_ found.info.end_)))) := by
    have hsame := congrArg List.length hcontent
    have hinfo := L.length_eq
    simp only [List.length_append] at hsame
    refine ⟨L.segSize_vint, rfl, rfl, fun _ => ?_, L.infoSize_vint, rfl, L.known, ?_⟩ <;>
      simp only [List.length_append] <;> omega
  have hat : d.content = (L.front ++ (bytesOf items ++ (id ++ size))).length := by
    have hitemsLen := congrArg List.length hitems
    rw [Bytes.length_slice b hle (hlt.le.trans hend)] at hitemsLen
    have hd := hreads.content
    simp only [List.length_append, ← hL.length_front]
    omega
  have hb : b = (L.front ++ (bytesOf items ++ (id ++ size))) ++
      (b.slice d.content d.end_ ++ (b.slice d.end_ found.info.end_ ++ L.back)) := by
    conv_lhs => rw [← hL.bytes_eq, L.bytes_front, hcontent]
    simp only [List.append_assoc]
  have hput := Buffer.put_mid (L.front ++ (bytesOf items ++ (id ++ size))) (b.slice d.end_ found.info.end_ ++ L.back) hat hnew
  rw [← hb] at hput
  cases hput.symm.trans h
  have hedit := tree_edit hfit
  have hout : (L.edit hfit).bytes = (L.front ++ (bytesOf items ++ (id ++ size))) ++
      (D.float d.size ticks ++ (b.slice d.end_ found.info.end_ ++ L.back)) := by
    simp only [bytes_front, front, back, edit, List.append_assoc]
  have hnum := hreads.num.trans hid
  have hknown := hreads.unknown.trans hk
  rw [hout, tree_leaf S items hreads.id_vint hreads.size_vint hknown hnum _
    ((length_float D hsize ticks).trans hreads.size_eq.symm)] at hedit
  rw [← hold] at hsize hedit ⊢
  refine ⟨_, _, _, b.slice d.content d.end_, hsize, ?_, hedit, _, _, hb, rfl⟩
  rw [hcontent]
  exact tree_leaf S items hreads.id_vint hreads.size_vint hknown hnum _ (hold.trans hreads.size_eq.symm)

end Layout

/-! ## The stamp -/

section

variable {b : Bytes} {found : Located} {ticks : UInt64}

/-- A size field goes where the old one is. -/
theorem grownSize_end {e : Elem} {n q : Nat} {v : Bytes} (h : grownSize b e n = some (q, v)) : q + v.length = e.content := by
  obtain ⟨-, hw, hw8, hlt, rfl⟩ := Layout.grownSize_some h
  rw [(vint_ok hw hw8 hlt).2.1]
  omega

theorem insert_isSome (D : Doubles) {L : Layout S} (hL : L.At b found) (hoffsets : found.hasOffsets = false)
    (hroom : HasRoom b found) (ticks : UInt64) : ∃ out, insert D b found ticks = some out := by
  have hlen : b.length = L.front.length + (L.content.length + L.back.length) := by
    rw [← hL.bytes_eq, L.bytes_front, List.length_append, List.length_append]
  have hinfoEnd := hL.info_end
  have hfront := hL.length_front
  have hsegLe : found.segment.content ≤ found.info.content := by
    have h₁ := hL.info_content
    have h₂ := hL.info_start
    omega
  have hgrown : (b.take found.info.end_ ++ (D.durationElem ticks ++ b.drop found.info.end_)).length = b.length + 11 := by
    simp only [List.length_append, List.length_take, List.length_drop, Layout.length_durationElem]
    omega
  obtain ⟨⟨q, infoSize⟩, hinfo⟩ := Option.isSome_iff_exists.mp hroom.1
  have hq := grownSize_end hinfo
  obtain ⟨out, hout⟩ := Buffer.put_isSome (show q + infoSize.length ≤
    (b.take found.info.end_ ++ (D.durationElem ticks ++ b.drop found.info.end_)).length by omega)
  rw [insert, hoffsets, if_neg Bool.false_ne_true]
  simp only [Layout.length_durationElem, hinfo, Option.bind_eq_bind, Option.bind_some]
  by_cases hu : found.segment.unknown = true
  · exact ⟨out, by rw [if_pos hu, hout]⟩
  · obtain ⟨⟨q', segSize⟩, hseg⟩ := Option.isSome_iff_exists.mp (hroom.2.resolve_left hu)
    have hq' := grownSize_end hseg
    have houtLen := Buffer.length_put hout
    obtain ⟨out', hout'⟩ := Buffer.put_isSome (show q' + segSize.length ≤ out.length by omega)
    exact ⟨out', by rw [if_neg hu, hseg, Option.bind_some, hout, Option.bind_some, hout']⟩

theorem room_of_insert {out : Bytes} (h : insert D b found ticks = some out) : HasRoom b found := by
  rw [insert] at h
  split at h
  · cases h
  simp only [Option.bind_eq_bind, Option.bind_eq_some_iff, Prod.exists, Layout.length_durationElem] at h
  obtain ⟨q, infoSize, hinfo, h⟩ := h
  refine ⟨Option.isSome_iff_exists.mpr ⟨_, hinfo⟩, ?_⟩
  by_cases hu : found.segment.unknown = true
  · exact .inl hu
  · rw [if_neg hu] at h
    obtain ⟨p, hseg, -⟩ := Option.bind_eq_some_iff.mp h
    exact .inr (Option.isSome_iff_exists.mpr ⟨p, hseg⟩)

theorem durationElem_tree (S : Schema) (D : Doubles) (ticks : UInt64) :
    S.tree (D.durationElem ticks) = [.leaf ⟨ID_DURATION, 1, false⟩ (D.float 8 ticks)] := by
  have hid : IsVint 4 [0x44, 0x89] := ⟨0x44, [0x89], rfl, by decide, by decide, by decide⟩
  have hsize : IsVint 8 [0x88] := ⟨0x88, [], rfl, by decide, by decide, by decide⟩
  have hlen : (D.float 8 ticks).length = vintSize [0x88] := Layout.length_float D (.inr rfl) ticks
  have htree := Layout.tree_leaf S [] hid hsize (by decide) (by decide) [] hlen
  rw [List.append_nil] at htree
  exact htree

/-- What comes of an insertion, for the tree. -/
theorem tree_insert {L : Layout S} {out : Bytes} (hL : L.At b found) (h : insert D b found ticks = some out) :
    S.tree b = L.site.fill (S.tree L.content) ∧ S.tree out = L.site.fill (S.tree (L.content ++ D.durationElem ticks)) := by
  obtain ⟨-, segSize, infoSize, hfit, rfl, -⟩ := Layout.insert_some hL h
  exact ⟨by rw [← hL.bytes_eq, L.tree_bytes], Layout.tree_edit hfit⟩

theorem length_insert {L : Layout S} {out : Bytes} (hL : L.At b found) (h : insert D b found ticks = some out) :
    out.length = b.length + 11 := by
  obtain ⟨-, segSize, infoSize, hfit, rfl, -⟩ := Layout.insert_some hL h
  have hseg := hfit.seg_length
  have hinfo := hfit.info_length
  have helem := Layout.length_durationElem D ticks
  rw [← hL.bytes_eq]
  simp only [Layout.bytes, inner, Layout.edit, List.length_append]
  omega

/-- It is what it may be where `Info` ends between elements and nothing stores an offset. -/
theorem stamped_insert {L : Layout S} {seconds : UInt64} {out : Bytes} (hL : L.At b found) (hfound : locate b = some found)
    (h : insert D b found (D.ticks seconds found.scale) = some out) (hstores : ¬ Stores (S.tree b)) (hwhole : Whole L.content) :
    Stamped S D b seconds out := by
  obtain ⟨htree, htree'⟩ := tree_insert hL h
  have happend : S.tree (L.content ++ D.durationElem (D.ticks seconds found.scale)) = S.tree L.content ++
      [.leaf ⟨ID_DURATION, 1, false⟩ (D.float 8 (D.ticks seconds found.scale))] := by
    rw [← durationElem_tree S D]
    exact hwhole.tree_append _
  rw [happend] at htree'
  obtain ⟨-, segSize, infoSize, hfit, rfl, hunknown⟩ := Layout.insert_some hL h
  refine .inserted hfound hstores htree htree' ⟨bytesOf L.top ++ L.segId, L.segSize, segSize, bytesOf L.pre ++ L.infoId,
    L.infoSize, infoSize, L.back, hfit.seg_length, hfit.info_length, ?_, L.content, ?_, ?_⟩
  · intro hu
    exact hunknown (hL.segment_unknown.trans hu)
  · rw [← hL.bytes_eq]
    simp only [Layout.bytes_front, Layout.front, List.append_assoc]
  · simp only [Layout.bytes_front, Layout.front, Layout.back, Layout.edit, List.append_assoc]

/-- And where it is, they do and nothing does. -/
theorem ready_of_insert {L : Layout S} {seconds : UInt64} {out : Bytes} (hL : L.At b found)
    (h : insert D b found (D.ticks seconds found.scale) = some out) (hst : Stamped S D b seconds out) :
    ¬ Stores (S.tree b) ∧ Whole L.content := by
  have hlen := length_insert hL h
  obtain ⟨htree, htree'⟩ := tree_insert hL h
  cases hst with
  | unchanged heq =>
      rw [heq] at hlen
      omega
  | replaced _ hold _ _ hbytes =>
      obtain ⟨a, c, rfl, rfl⟩ := hbytes
      simp only [List.length_append, Layout.length_float D hold] at hlen
      omega
  | inserted _ hstores hsite hsite' _ =>
      refine ⟨hstores, ?_⟩
      obtain ⟨rfl, hchildren⟩ := Site.fill_inj (htree.symm.trans hsite)
      obtain ⟨-, hgrown⟩ := Site.fill_inj (htree'.symm.trans hsite')
      rw [← hchildren] at hgrown
      exact whole_of_closed (closed_of_tree hgrown)

end

/-- The stamp does what it may exactly to the files that are ready for it. -/
theorem stamped_iff (S : Schema) (D : Doubles) (bytes : Bytes) (seconds : UInt64) (h : isLength seconds = true) :
    Stamped S D bytes seconds (stampWebmDuration D bytes seconds) ↔ Ready S bytes := by
  rw [stampWebmDuration, h, Bool.not_true, if_neg Bool.false_ne_true]
  cases hlocate : locate bytes with
  | none =>
      refine ⟨fun _ found hfound => ?_, fun _ => .unchanged rfl⟩
      rw [hlocate] at hfound
      cases hfound
  | some found =>
      dsimp only
      obtain ⟨L, hL⟩ := layout_of_locate S hlocate
      cases hd : found.duration with
      | some d =>
          refine ⟨fun _ found' hfound' hnone => ?_, fun _ => ?_⟩
          · rw [hlocate, Option.some.injEq] at hfound'
            rw [← hfound', hd] at hnone
            cases hnone
          · dsimp only
            cases hover : overwrite D bytes d (D.ticks seconds found.scale) with
            | none => exact .unchanged rfl
            | some out =>
                obtain ⟨l, r, width, old, hold, htree, htree', hbytes⟩ := Layout.overwrite_some hL hd hover
                refine .replaced hlocate hold ?_ htree' hbytes
                rw [← htree, ← L.tree_bytes, hL.bytes_eq]
      | none =>
          dsimp only
          have hcontent := hL.slice_content
          cases hins : insert D bytes found (D.ticks seconds found.scale) with
          | none =>
              refine ⟨fun _ found' hfound' _ hroom => ?_, fun _ => .unchanged rfl⟩
              rw [hlocate, Option.some.injEq] at hfound'
              subst hfound'
              cases hoffsets : found.hasOffsets with
              | true => exact .inl rfl
              | false =>
                  obtain ⟨out, hout⟩ := insert_isSome D hL hoffsets hroom (D.ticks seconds found.scale)
                  rw [hins] at hout
                  cases hout
          | some out =>
              rw [Option.getD_some]
              constructor
              · intro hst found' hfound' _ _
                rw [hlocate, Option.some.injEq] at hfound'
                subst hfound'
                rw [hcontent]
                exact .inr (ready_of_insert hL hins hst)
              · intro hready
                have hoffsets := (Layout.insert_some hL hins).1
                have hok := (hready found hlocate hd (room_of_insert hins)).resolve_left (by simp [hoffsets])
                rw [hcontent] at hok
                exact stamped_insert hL hlocate hins hok.1 hok.2

/-! ## Two files -/

/-- The elements that hold elements in a recording. -/
def MASTERS : List Nat :=
  [0x1a45dfa3, ID_SEGMENT, ID_SEEKHEAD, 0x4dbb, ID_INFO, ID_CLUSTER, 0xa0, 0x1654ae6b, 0xae, 0xe0, 0xe1, ID_CUES, 0xbb, 0xb7,
    0x1254c367, 0x7373, 0x63c0, 0x67c8]

theorem masters_ok : MASTERS.contains ID_SEGMENT = true ∧ MASTERS.contains ID_INFO = true ∧
    MASTERS.contains ID_DURATION = false := by
  decide

def matroska : Schema where
  isMaster := MASTERS.contains
  segment := masters_ok.1
  info := masters_ok.2.1
  duration := masters_ok.2.2

/-- Two seconds are two thousand milliseconds; and no other sum is done here. -/
def twoSeconds : Doubles where
  ticks _ _ := 0x409f400000000000
  single _ := 0x44fa0000

def two : UInt64 := 0x4000000000000000

/-- A segment of unknown size with `Info` and a cluster. -/
def streamed : Bytes :=
  [0x18, 0x53, 0x80, 0x67, 0xff, 0x15, 0x49, 0xa9, 0x66, 0x80, 0x1f, 0x43, 0xb6, 0x75, 0x80]

theorem streamed_located : locate streamed = some {
    segment := ⟨ID_SEGMENT, 0, 5, 127, 15, true⟩
    info := ⟨ID_INFO, 5, 10, 0, 10, false⟩
    duration := none
    scale := 1000000
    hasOffsets := false } := by
  decide

theorem streamed_stamped : Stamped matroska twoSeconds streamed two (stampWebmDuration twoSeconds streamed two) ∧
    (stampWebmDuration twoSeconds streamed two).length = 26 := by
  refine ⟨(stamped_iff matroska twoSeconds streamed two (by decide)).mpr ?_, by decide⟩
  intro found hfound _ _
  rw [streamed_located, Option.some.injEq] at hfound
  subst hfound
  exact .inr ⟨by decide, [], by decide⟩

/-- `Info`, a cluster, and the `Cues` that tell where the cluster is. -/
def cued : Bytes :=
  [0x18, 0x53, 0x80, 0x67, 0x9f, 0x15, 0x49, 0xa9, 0x66, 0x80, 0x1f, 0x43, 0xb6, 0x75, 0x83, 0xe7, 0x81, 0x00,
    0x1c, 0x53, 0xbb, 0x6b, 0x8d, 0xbb, 0x8b, 0xb3, 0x81, 0x00, 0xb7, 0x86, 0xf7, 0x81, 0x01, 0xf1, 0x81, 0x05]

/-- The cluster moves, and the `Cues` do not say so. -/
theorem cued_moved : ¬ Stamped matroska twoSeconds cued two (stampWebmDuration twoSeconds cued two) := by
  have hlen : (stampWebmDuration twoSeconds cued two).length = 47 := by decide
  have hstores : Stores (matroska.tree cued) := by decide
  intro h
  cases h with
  | unchanged heq =>
      rw [heq] at hlen
      cases hlen
  | replaced _ hold _ _ hbytes =>
      obtain ⟨a, c, hcued, hout⟩ := hbytes
      have hcuedLen := congrArg List.length hcued
      have houtLen := congrArg List.length hout
      rw [hlen] at houtLen
      have hthirty : cued.length = 36 := rfl
      simp only [List.length_append, Layout.length_float _ hold, hthirty] at hcuedLen houtLen
      omega
  | inserted _ hno => exact hno hstores

end EncedoChat.Webm
