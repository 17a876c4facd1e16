import EncedoChat.Qr.Standard

/-!
# Codewords there and back

What the encoder puts into the stream the reader takes apart again: the blocks with their check words, the codewords in
them, and the segment in those.
-/

namespace EncedoChat.Qr

open Standard

variable {version : Nat} {data : Bytes}

/-- The version holds so many bytes. -/
def Fits (version : Nat) (data : Bytes) : Prop := 4 + countBits version + data.length * 8 ≤ (spec version).data * 8

/-! ## The segment -/

/-- Mode, count and payload. -/
def segment (version : Nat) (data : Bytes) : List Nat :=
  pushBits 0b0100 4 ++ pushBits data.length (countBits version) ++ data.flatMap fun b => pushBits b.toNat 8

theorem length_payload (data : Bytes) : (data.flatMap fun b => pushBits b.toNat 8).length = 8 * data.length := by
  induction data with
  | nil => rfl
  | cons b data ih => rw [List.flatMap_cons, List.length_append, ih, length_pushBits, List.length_cons]; omega

theorem length_segment (version : Nat) (data : Bytes) :
    (segment version data).length = 4 + countBits version + 8 * data.length := by
  rw [segment, List.length_append, List.length_append, length_pushBits, length_pushBits, length_payload]

theorem toBytes_payload (data : Bytes) :
    (toBytes (data.flatMap fun b => pushBits b.toNat 8)).map UInt8.ofNat = data := by
  have hmap : (data.flatMap fun b => pushBits b.toNat 8) = (data.map UInt8.toNat).flatMap (pushBits · 8) := by
    rw [List.flatMap_map]
  have hsmall : ∀ c ∈ data.map UInt8.toNat, c < 256 := by
    intro c hc
    obtain ⟨b, -, rfl⟩ := List.mem_map.mp hc
    exact b.toNat_lt
  rw [hmap, toBytes_flatMap hsmall, List.map_map]
  exact List.map_id'' (fun b => UInt8.ofNat_toNat) data

theorem count_lt (hfits : Fits version data) (hv : Known version) : data.length < 2 ^ countBits version := by
  have hdata : (spec version).data ≤ if version < 10 then 255 else 65535 := by
    have hall : ∀ v < 21, (spec v).data ≤ if v < 10 then 255 else 65535 := by decide
    exact hall version hv.2
  rw [Fits] at hfits
  rw [countBits] at hfits ⊢
  split at hfits <;> rename_i hlt <;> simp only [hlt, if_true, if_false] at hdata ⊢ <;> omega

/-- The segment is read, whatever follows it. -/
theorem readSegment_segment (hv : Known version) (hfits : Fits version data) (rest : List Nat) :
    readSegment version (segment version data ++ rest) = some data := by
  have hmode : (segment version data ++ rest).take 4 = pushBits 0b0100 4 := by
    rw [segment, List.append_assoc, List.append_assoc]
    exact List.take_left' (length_pushBits _ _)
  have hdrop : (segment version data ++ rest).drop 4 =
      pushBits data.length (countBits version) ++ ((data.flatMap fun b => pushBits b.toNat 8) ++ rest) := by
    rw [segment, List.append_assoc, List.append_assoc]
    exact List.drop_left' (length_pushBits _ _)
  have hcount : ofBits (((segment version data ++ rest).drop 4).take (countBits version)) = data.length := by
    rw [hdrop, List.take_left' (length_pushBits _ _), ofBits_pushBits, Nat.mod_eq_of_lt (count_lt hfits hv)]
  have hpayload : ((segment version data ++ rest).drop (4 + countBits version)).take (8 * data.length) =
      data.flatMap fun b => pushBits b.toNat 8 := by
    rw [← List.drop_drop, hdrop, List.drop_left' (length_pushBits _ _), List.take_left' (length_payload data)]
  rw [readSegment]
  simp only [hmode, hcount, hpayload, length_payload, toBytes_payload, and_true]
  exact if_pos (ofBits_pushBits 0b0100 4)

/-! ## The codewords -/

/-- The stream of bits is the segment and some zeros, in whole bytes, and no more than fit. -/
theorem bitStream_eq (hfits : Fits version data) : ∃ n ≤ (spec version).data, ∃ zeros,
    bitStream version data = segment version data ++ List.replicate zeros 0 ∧
      (bitStream version data).length = 8 * n := by
  have hlen := length_segment version data
  rw [Fits] at hfits
  have hbits : bitStream version data = segment version data
      ++ pushBits 0 (min 4 ((spec version).data * 8 - (segment version data).length))
      ++ List.replicate ((8 - ((segment version data)
        ++ pushBits 0 (min 4 ((spec version).data * 8 - (segment version data).length))).length % 8) % 8) 0 := rfl
  rw [pushBits_zero, List.length_append, List.length_replicate, List.append_assoc,
    List.replicate_append_replicate] at hbits
  have htotal := congrArg List.length hbits
  rw [List.length_append, List.length_replicate] at htotal
  refine ⟨(bitStream version data).length / 8, ?_, _, hbits, ?_⟩ <;> omega

theorem padding_lt (n : Nat) : ∀ c ∈ padding n, c < 256 := by
  intro c hc
  obtain ⟨pad, -, rfl⟩ := List.mem_map.mp hc
  split <;> decide

theorem segment_lt : ∀ b ∈ segment version data, b < 2 := by
  intro b hb
  rw [segment, List.mem_append, List.mem_append] at hb
  rcases hb with (hb | hb) | hb
  · exact pushBits_lt _ _ b hb
  · exact pushBits_lt _ _ b hb
  · obtain ⟨x, -, hx⟩ := List.mem_flatMap.mp hb
    exact pushBits_lt _ _ b hx

theorem bitStream_lt (hfits : Fits version data) : ∀ b ∈ bitStream version data, b < 2 := by
  obtain ⟨n, -, zeros, heq, -⟩ := bitStream_eq hfits
  intro b hb
  rw [heq, List.mem_append] at hb
  rcases hb with hb | hb
  · exact segment_lt b hb
  · rw [List.eq_of_mem_replicate hb]
    decide

theorem codewords_lt (hfits : Fits version data) : ∀ c ∈ codewords version data, c < 256 := by
  intro c hc
  rw [codewords, List.mem_append] at hc
  exact hc.elim (toBytes_lt (bitStream_lt hfits) c) (padding_lt _ c)

theorem length_codewords (hfits : Fits version data) : (codewords version data).length = (spec version).data := by
  obtain ⟨n, hn, zeros, -, hlen⟩ := bitStream_eq hfits
  rw [codewords, List.length_append, length_toBytes, hlen, padding, List.length_map, List.length_range]
  omega

/-- The codewords as bits begin with the segment. -/
theorem bits_codewords (hfits : Fits version data) :
    ∃ rest, (codewords version data).flatMap (pushBits · 8) = segment version data ++ rest := by
  obtain ⟨n, -, zeros, heq, hlen⟩ := bitStream_eq hfits
  rw [codewords, List.flatMap_append, flatMap_toBytes hlen (bitStream_lt hfits), heq, List.append_assoc]
  exact ⟨_, rfl⟩

/-! ## The blocks -/

theorem map_length_cut {sizes l : List Nat} (h : l.length = sizes.sum) : (cut sizes l).map List.length = sizes := by
  induction sizes generalizing l with
  | nil => rfl
  | cons size sizes ih =>
      rw [List.sum_cons] at h
      rw [cut, List.map_cons, List.length_take, ih (by rw [List.length_drop]; omega)]
      congr 1
      omega

theorem flatten_cut {sizes l : List Nat} (h : l.length = sizes.sum) : (cut sizes l).flatten = l := by
  induction sizes generalizing l with
  | nil =>
      rw [List.sum_nil, List.length_eq_zero_iff] at h
      rw [h]
      rfl
  | cons size sizes ih =>
      rw [List.sum_cons] at h
      rw [cut, List.flatten_cons, ih (by rw [List.length_drop]; omega), List.take_append_drop]

theorem mem_cut {sizes l b : List Nat} (hb : b ∈ cut sizes l) : ∀ c ∈ b, c ∈ l := by
  induction sizes generalizing l with
  | nil => cases hb
  | cons size sizes ih =>
      rw [cut, List.mem_cons] at hb
      rcases hb with rfl | hb
      · exact fun c hc => List.mem_of_mem_take hc
      · exact fun c hc => List.mem_of_mem_drop (ih hb c hc)

theorem sum_sizes : ∀ v < 21, 1 ≤ v → (sizes v).sum = (spec v).data ∧ (spec v).ec ≤ 255 := by decide

theorem sizes_dataBlocks (hv : Known version) (hfits : Fits version data) :
    (dataBlocks version data).map List.length = sizes version :=
  map_length_cut ((length_codewords hfits).trans (sum_sizes version hv.2 hv.1).1.symm)

theorem dataBlocks_lt (hfits : Fits version data) {b : List Nat} (hb : b ∈ dataBlocks version data) :
    ∀ c ∈ b, c < 256 :=
  fun c hc => codewords_lt hfits c (mem_cut hb c hc)

/-- A block with its check words. -/
def whole (version : Nat) (data : Bytes) (j : Nat) : List Nat :=
  let b := (dataBlocks version data).getD j []
  b ++ ecBlock b (spec version).ec

/-! ## The stream -/

/-- The `i`th words of the blocks that have one. -/
theorem filterMap_get (blocks : List (List Nat)) (i : Nat) : blocks.filterMap (·[i]?) =
    ((List.range blocks.length).filter fun j => i < ((blocks.map List.length).getD j 0)).map fun j =>
      (blocks.getD j []).getD i 0 := by
  induction blocks with
  | nil => rfl
  | cons b blocks ih =>
      rw [List.length_cons, List.range_succ_eq_map, List.filter_cons, List.filter_map, List.filterMap_cons, ih]
      by_cases hi : i < b.length
      · simp [hi, Function.comp_def]
      · simp [hi, Function.comp_def]

theorem map_range_getD {l : List Nat} : (List.range l.length).map (l.getD · 0) = l := by
  refine List.ext_getElem (by rw [List.length_map, List.length_range]) fun i h _ => ?_
  rw [List.getElem_map, List.getElem_range, List.getD_eq_getElem]

theorem map_range_getD_nil {l : List (List Nat)} : (List.range l.length).map (l.getD · []) = l := by
  refine List.ext_getElem (by rw [List.length_map, List.length_range]) fun i h _ => ?_
  rw [List.getElem_map, List.getElem_range, List.getD_eq_getElem]

section

variable (hv : Known version) (hfits : Fits version data)

include hv hfits

theorem length_dataBlocks : (dataBlocks version data).length = (sizes version).length := by
  rw [← sizes_dataBlocks hv hfits, List.length_map]

theorem length_dataBlock {j : Nat} (hj : j < (sizes version).length) :
    ((dataBlocks version data).getD j []).length = (sizes version).getD j 0 := by
  have hlen := length_dataBlocks hv hfits
  rw [← sizes_dataBlocks hv hfits, List.getD_eq_getElem _ _ (by omega),
    List.getD_eq_getElem _ _ (by rw [List.length_map]; omega), List.getElem_map]

theorem mem_dataBlock {j : Nat} (hj : j < (sizes version).length) :
    (dataBlocks version data).getD j [] ∈ dataBlocks version data := by
  rw [List.getD_eq_getElem _ _ (by rw [length_dataBlocks hv hfits]; exact hj)]
  exact List.getElem_mem _

theorem length_check {j : Nat} (hj : j < (sizes version).length) :
    (ecBlock ((dataBlocks version data).getD j []) (spec version).ec).length = (spec version).ec :=
  length_ecBlock (dataBlocks_lt hfits (mem_dataBlock hv hfits hj)) (sum_sizes version hv.2 hv.1).2

theorem length_whole {j : Nat} (hj : j < (sizes version).length) :
    (whole version data j).length = (sizes version).getD j 0 + (spec version).ec := by
  rw [whole, List.length_append, length_dataBlock hv hfits hj, length_check hv hfits hj]

/-- The stream has the words of the blocks in the order of the slots. -/
theorem stream_eq : stream version data =
    (slots (sizes version) (spec version).ec).map fun p => (whole version data p.1).getD p.2 0 := by
  have hlen := length_dataBlocks hv hfits
  have hec : (ecBlocks version data).map List.length = List.replicate (sizes version).length (spec version).ec := by
    refine List.eq_replicate_iff.mpr ⟨by rw [List.length_map, ecBlocks, List.length_map, hlen], fun n hn => ?_⟩
    obtain ⟨e, he, rfl⟩ := List.mem_map.mp hn
    obtain ⟨b, hb, rfl⟩ := List.mem_map.mp he
    exact length_ecBlock (dataBlocks_lt hfits hb) (sum_sizes version hv.2 hv.1).2
  rw [stream, slots, List.map_append, interleave, interleave, List.map_flatMap, List.map_flatMap, widest,
    sizes_dataBlocks hv hfits]
  congr 1
  · refine List.flatMap_congr fun i _ => ?_
    rw [filterMap_get, sizes_dataBlocks hv hfits, hlen, List.map_map]
    refine List.map_congr_left fun j hj => ?_
    obtain ⟨hj, hi⟩ := List.mem_filter.mp hj
    rw [List.mem_range] at hj
    rw [decide_eq_true_eq, ← length_dataBlock hv hfits hj] at hi
    rw [Function.comp_apply, whole, List.getD_append _ _ _ _ hi]
  · refine List.flatMap_congr fun i hi => ?_
    rw [List.mem_range] at hi
    have hlen' : (ecBlocks version data).length = (sizes version).length := by rw [ecBlocks, List.length_map, hlen]
    have hall : (List.range (sizes version).length).filter (fun j =>
        i < (List.replicate (sizes version).length (spec version).ec).getD j 0) =
          List.range (sizes version).length := by
      refine List.filter_eq_self.mpr fun j hj => ?_
      rw [List.mem_range] at hj
      rw [List.getD_replicate _ hj]
      exact decide_eq_true hi
    rw [filterMap_get, hec, hlen', hall, List.map_map]
    refine List.map_congr_left fun j hj => ?_
    rw [List.mem_range] at hj
    have hblock : (ecBlocks version data).getD j [] =
        ecBlock ((dataBlocks version data).getD j []) (spec version).ec := by
      rw [List.getD_eq_getElem _ _ (by omega), List.getD_eq_getElem _ _ (by omega)]
      exact List.getElem_map ..
    have hsize := length_dataBlock hv hfits hj
    rw [Function.comp_apply, whole]
    dsimp only
    rw [List.getD_append_right _ _ _ _ (by omega), hsize, Nat.add_sub_cancel_left, hblock]

theorem length_stream : (stream version data).length = totalCodewords version := by
  have hslots : ∀ v < 21, 1 ≤ v → (slots (sizes v) (spec v).ec).length = totalCodewords v := by decide +kernel
  rw [stream_eq hv hfits, List.length_map, hslots version hv.2 hv.1]

theorem stream_lt : ∀ c ∈ stream version data, c < 256 := by
  intro c hc
  rw [stream, interleave, interleave, List.mem_append, List.mem_flatMap, List.mem_flatMap] at hc
  rcases hc with ⟨i, -, hc⟩ | ⟨i, -, hc⟩
  · obtain ⟨b, hb, hget⟩ := List.mem_filterMap.mp hc
    exact dataBlocks_lt hfits hb c (List.mem_of_getElem? hget)
  · obtain ⟨e, he, hget⟩ := List.mem_filterMap.mp hc
    obtain ⟨b, hb, rfl⟩ := List.mem_map.mp he
    exact ecBlock_lt (dataBlocks_lt hfits hb) (sum_sizes version hv.2 hv.1).2 c (List.mem_of_getElem? hget)

end

theorem le_foldl_max {l : List Nat} {x : Nat} (hx : x ∈ l) (a : Nat) : x ≤ l.foldl max a := by
  have hbase : ∀ (l : List Nat) (a : Nat), a ≤ l.foldl max a := by
    intro l
    induction l with
    | nil => exact fun a => Nat.le_refl a
    | cons y l ih => exact fun a => (Nat.le_max_left a y).trans (ih _)
  induction l generalizing a with
  | nil => cases hx
  | cons y l ih =>
      rcases List.mem_cons.mp hx with rfl | hx
      · exact (Nat.le_max_right a x).trans (hbase l _)
      · exact ih hx _

/-- Every word of every block has its slot. -/
theorem mem_slots {sizes : List Nat} {ec j i : Nat} (hj : j < sizes.length) (hi : i < sizes.getD j 0 + ec) :
    (j, i) ∈ slots sizes ec := by
  rw [slots, List.mem_append, List.mem_flatMap, List.mem_flatMap]
  by_cases hdata : i < sizes.getD j 0
  · left
    have hmax : sizes.getD j 0 ≤ sizes.foldl max 0 := by
      rw [List.getD_eq_getElem _ _ hj]
      exact le_foldl_max (List.getElem_mem hj) 0
    exact ⟨i, List.mem_range.mpr (by omega), List.mem_map.mpr ⟨j, List.mem_filter.mpr
      ⟨List.mem_range.mpr hj, decide_eq_true hdata⟩, rfl⟩⟩
  · right
    exact ⟨i - sizes.getD j 0, List.mem_range.mpr (by omega),
      List.mem_map.mpr ⟨j, List.mem_range.mpr hj, Prod.ext rfl (by dsimp only; omega)⟩⟩

theorem getD_idxOf {α : Type} [BEq α] [LawfulBEq α] {l : List α} {f : α → Nat} {a : α} (h : a ∈ l) :
    (l.map f).getD (l.idxOf a) 0 = f a := by
  have hlt : l.idxOf a < l.length := List.idxOf_lt_length_iff.mpr h
  rw [List.getD_eq_getElem _ _ (by rw [List.length_map]; exact hlt), List.getElem_map, List.getElem_idxOf]

section

variable (hv : Known version) (hfits : Fits version data)

include hv hfits

/-- The reader gets the blocks back. -/
theorem blocks_stream : blocks version (stream version data) =
    (List.range (sizes version).length).map (whole version data) := by
  refine List.map_congr_left fun j hj => ?_
  rw [List.mem_range] at hj
  rw [block, ← length_whole hv hfits hj]
  refine Eq.trans (List.map_congr_left fun i hi => ?_) map_range_getD
  rw [List.mem_range, length_whole hv hfits hj] at hi
  rw [stream_eq hv hfits, getD_idxOf (mem_slots hj hi)]

theorem intact_whole {j : Nat} (hj : j < (sizes version).length) : Intact (spec version).ec (whole version data j) :=
  fun _ hk => syndrome_ecBlock (dataBlocks_lt hfits (mem_dataBlock hv hfits hj)) (sum_sizes version hv.2 hv.1).2 hk

theorem dataOf_blocks : dataOf version (blocks version (stream version data)) = codewords version data := by
  have htakes : (blocks version (stream version data)).map (fun b => b.take (b.length - (spec version).ec)) =
      dataBlocks version data := by
    have hlen := length_dataBlocks hv hfits
    rw [blocks_stream hv hfits, List.map_map, ← hlen]
    refine Eq.trans (List.map_congr_left fun j hj => ?_) map_range_getD_nil
    rw [List.mem_range, hlen] at hj
    rw [Function.comp_apply, length_whole hv hfits hj, Nat.add_sub_cancel, ← length_dataBlock hv hfits hj, whole,
      List.take_left']
    rfl
  rw [dataOf, htakes]
  exact flatten_cut ((length_codewords hfits).trans (sum_sizes version hv.2 hv.1).1.symm)

end

end EncedoChat.Qr
