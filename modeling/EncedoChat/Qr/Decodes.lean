import EncedoChat.Qr.Codewords
import EncedoChat.Qr.Modules
import Mathlib.Tactic.IntervalCases

/-!
# What is drawn can be read

The standard's reader gets every byte string back from the matrix that `qrMatrix` draws of it, under whatever mask.
-/

namespace EncedoChat.Qr

open Standard

variable {version mask : Nat} {data : Bytes} {bits : List Nat} {g : Grid} {fn : Nat → Nat → Bool}

/-! ## The version -/

theorem capacity : ∀ v < 21, 1 ≤ v → (spec v).data * 8 < 4 + countBits v + 859 * 8 := by decide

/-- A version is found unless there are too many bytes. -/
theorem pickVersion_spec (data : Bytes) : pickVersion data.length = 0 ∧ 858 < data.length ∨
    Known (pickVersion data.length) ∧ Fits (pickVersion data.length) data ∧ data.length ≤ 858 := by
  rw [pickVersion]
  cases hfind : ((List.range VERSIONS.length).map (· + 1)).find? fun v =>
      4 + countBits v + data.length * 8 ≤ (spec v).data * 8 with
  | none =>
      left
      have hlast := List.find?_eq_none.mp hfind 20 (by decide)
      have hspec : (spec 20).data = 861 := rfl
      have hcount : countBits 20 = 16 := rfl
      simp only [hcount, hspec, decide_eq_true_eq] at hlast
      exact ⟨rfl, by omega⟩
  | some v =>
      right
      obtain ⟨i, hi, rfl⟩ := List.mem_map.mp (List.mem_of_find?_eq_some hfind)
      have hfits : 4 + countBits (i + 1) + data.length * 8 ≤ (spec (i + 1)).data * 8 := by
        simpa using List.find?_some hfind
      have hi : i < 20 := List.mem_range.mp hi
      have := capacity (i + 1) (by omega) (by omega)
      exact ⟨⟨by rw [Option.getD_some]; omega, by rw [Option.getD_some]; omega⟩, hfits, by omega⟩

/-! ## The grid -/

theorem moduleOf_matrix {n r c : Nat} (hr : r < n) (hc : c < n) :
    moduleOf (matrix n g) (r, c) = if g (r, c) = 1 then 1 else 0 := by
  simp [moduleOf, matrix, hr, hc]

/-- The modules of the format and of the dark module. -/
def formatKeys (version : Nat) : List (Nat × Nat) :=
  (formatModules (size version)).map Prod.fst ++ [(size version - 8, 8)]

def versionKeys (version : Nat) : List (Nat × Nat) := (versionModules (size version)).map Prod.fst

/-- Bits with their places. -/
def placed (n : Nat) (place : Nat → Nat × Nat) : List ((Nat × Nat) × Nat) := (List.range n).map fun i => (place i, i)

theorem mem_placed {n i : Nat} {place : Nat → Nat × Nat} (hi : i < n) : (place i, i) ∈ placed n place :=
  List.mem_map.mpr ⟨i, List.mem_range.mpr hi, rfl⟩

theorem formatModules_eq (version : Nat) :
    formatModules (size version) = placed 15 formatPlace ++ placed 15 (formatPlace' version) := rfl

theorem mem_versionModules {p : (Nat × Nat) × Nat} : p ∈ versionModules (size version) ↔
    ∃ i < 18, p = (versionPlace version i, i) ∨ p = ((versionPlace version i).swap, i) := by
  simp only [versionModules, List.mem_flatMap, List.mem_range, List.mem_cons, List.not_mem_nil, or_false]
  rfl

theorem formatKeys_eq (version : Nat) : formatKeys version =
    (List.range 15).map formatPlace ++ ((List.range 15).map (formatPlace' version) ++ [(size version - 8, 8)]) := rfl

theorem formatPlace_le : ∀ i < 15, (formatPlace i).1 ≤ 8 ∧ (formatPlace i).2 ≤ 8 := by decide

/-- Beside the second finder, or the third. -/
theorem formatPlace'_spec (hv : Known version) {i : Nat} (hi : i < 15) :
    i < 8 ∧ (formatPlace' version i).1 = 8 ∧ (formatPlace' version i).2 = size version - 1 - i ∨
      8 ≤ i ∧ (formatPlace' version i).1 = size version - 15 + i ∧ (formatPlace' version i).2 = 8 := by
  have hsize := size_ge hv
  rw [formatPlace']
  split
  · exact .inl ⟨by assumption, rfl, rfl⟩
  · exact .inr ⟨by omega, rfl, rfl⟩

theorem mem_formatKeys (hv : Known version) {p : Nat × Nat} (hp : p ∈ formatKeys version) :
    p.1 ≤ 8 ∧ p.2 ≤ 8 ∨ p.1 = 8 ∧ size version - 8 ≤ p.2 ∧ p.2 < size version ∨
      p.2 = 8 ∧ size version - 8 ≤ p.1 ∧ p.1 < size version := by
  have hsize := size_ge hv
  rw [formatKeys_eq, List.mem_append, List.mem_append, List.mem_singleton] at hp
  rcases hp with hp | hp | rfl
  · obtain ⟨i, hi, rfl⟩ := List.mem_map.mp hp
    exact .inl (formatPlace_le i (List.mem_range.mp hi))
  · obtain ⟨i, hi, rfl⟩ := List.mem_map.mp hp
    have hi := List.mem_range.mp hi
    have := formatPlace'_spec hv hi
    omega
  · exact .inr (.inr ⟨rfl, le_rfl, Nat.sub_lt (by omega) (by decide)⟩)

theorem nodup_formatKeys (hv : Known version) : (formatKeys version).Nodup := by
  have hsize := size_ge hv
  have hfar : ∀ p ∈ (List.range 15).map (formatPlace' version) ++ [(size version - 8, 8)],
      size version - 8 ≤ p.1 ∨ size version - 8 ≤ p.2 := by
    intro p hp
    rw [List.mem_append, List.mem_singleton] at hp
    rcases hp with hp | rfl
    · obtain ⟨i, hi, rfl⟩ := List.mem_map.mp hp
      have := formatPlace'_spec hv (List.mem_range.mp hi)
      omega
    · exact .inl le_rfl
  rw [formatKeys_eq, List.nodup_append, List.nodup_append]
  refine ⟨by decide, ⟨List.nodup_range.map_on fun i hi j hj hij => ?_, List.nodup_singleton _, ?_⟩, ?_⟩
  · have h₁ := formatPlace'_spec hv (List.mem_range.mp hi)
    have h₂ := formatPlace'_spec hv (List.mem_range.mp hj)
    rw [hij] at h₁
    omega
  · intro p hp q hq
    obtain ⟨i, hi, rfl⟩ := List.mem_map.mp hp
    obtain rfl := List.mem_singleton.mp hq
    intro heq
    have hspec := formatPlace'_spec hv (List.mem_range.mp hi)
    rw [heq] at hspec
    dsimp only at hspec
    omega
  · intro p hp q hq
    obtain ⟨i, hi, rfl⟩ := List.mem_map.mp hp
    rintro rfl
    have hnear := formatPlace_le i (List.mem_range.mp hi)
    have := hfar _ hq
    omega

theorem fixed_formatKeys (hv : Known version) {p : Nat × Nat} (hp : p ∈ formatKeys version) :
    Fixed version p.1 p.2 := by
  have := mem_formatKeys hv hp
  rw [Fixed]
  omega

theorem formatModules_lt (hv : Known version) {p : (Nat × Nat) × Nat} (hp : p ∈ formatModules (size version)) :
    p.1.1 < size version ∧ p.1.2 < size version := by
  have hsize := size_ge hv
  have := mem_formatKeys hv (List.mem_append_left _ (List.mem_map.mpr ⟨p, hp, rfl⟩))
  omega

theorem mem_versionKeys {p : Nat × Nat} (hp : p ∈ versionKeys version) :
    ∃ i < 18, p = (i / 3, size version - 11 + i % 3) ∨ p = (size version - 11 + i % 3, i / 3) := by
  obtain ⟨q, hq, rfl⟩ := List.mem_map.mp hp
  obtain ⟨i, hi, rfl | rfl⟩ := mem_versionModules.mp hq
  · exact ⟨i, hi, .inl rfl⟩
  · exact ⟨i, hi, .inr rfl⟩

theorem size_ge_of_version (h7 : 7 ≤ version) : 45 ≤ size version := by
  rw [size]
  omega

theorem nodup_versionKeys (h7 : 7 ≤ version) : (versionKeys version).Nodup := by
  have hsize := size_ge_of_version h7
  have hkeys : versionKeys version = (List.range 18).flatMap fun i =>
      [(i / 3, size version - 11 + i % 3), (size version - 11 + i % 3, i / 3)] := rfl
  rw [hkeys, List.nodup_flatMap]
  refine ⟨fun i hi => ?_, List.nodup_range.pairwise_of_forall_ne fun i hi j hj hne => ?_⟩
  · rw [List.mem_range] at hi
    simp
    omega
  · rw [List.mem_range] at hi hj
    simp only [Function.onFun, List.disjoint_left, List.mem_cons, List.not_mem_nil, or_false]
    rintro p (rfl | rfl) (h | h) <;> obtain ⟨h₁, h₂⟩ := Prod.mk.inj h <;> omega

theorem fixed_versionKeys (hv : Known version) (h7 : 7 ≤ version) {p : Nat × Nat} (hp : p ∈ versionKeys version) :
    Fixed version p.1 p.2 ∧ p ∉ formatKeys version := by
  have hsize := size_ge_of_version h7
  obtain ⟨i, hi, rfl | rfl⟩ := mem_versionKeys hp
  · refine ⟨?_, fun hin => ?_⟩
    · rw [Fixed]
      dsimp only
      omega
    · have := mem_formatKeys hv hin
      omega
  · refine ⟨?_, fun hin => ?_⟩
    · rw [Fixed]
      dsimp only
      omega
    · have := mem_formatKeys hv hin
      omega

theorem versionModules_lt (h7 : 7 ≤ version) {p : (Nat × Nat) × Nat} (hp : p ∈ versionModules (size version)) :
    p.1.1 < size version ∧ p.1.2 < size version := by
  have hsize := size_ge_of_version h7
  obtain ⟨i, hi, heq | heq⟩ := mem_versionKeys (List.mem_map.mpr ⟨p, hp, rfl⟩)
  · rw [heq]
    constructor <;> dsimp only <;> omega
  · rw [heq]
    constructor <;> dsimp only <;> omega

theorem keys_writeFormat (version mask : Nat) : (((formatModules (size version)).map fun (pi : (Nat × Nat) × Nat) =>
    (pi.1, bit (formatBits mask) pi.2)) ++ [((size version - 8, 8), 1)]).map Prod.fst = formatKeys version := by
  rw [List.map_append, List.map_map]
  rfl

theorem keys_writeVersion (version : Nat) : ((versionModules (size version)).map fun (pi : (Nat × Nat) × Nat) =>
    (pi.1, bit (versionBits version) pi.2)).map Prod.fst = versionKeys version := by
  rw [List.map_map]
  rfl

/-- A module for data is as the mask left it. -/
theorem drawn_data (hv : Known version) {p : Nat × Nat} (hp : p ∈ dataModules version) :
    drawn version bits mask fn p = if fn p.1 p.2 then (placeData version (patterns version) bits p).xor 1
      else placeData version (patterns version) bits p := by
  obtain ⟨hr, hc, hnot⟩ := (mem_dataModules hv).mp hp
  have hmasked : applyMask version fn (placeData version (patterns version) bits) p =
      if fn p.1 p.2 then (placeData version (patterns version) bits p).xor 1
        else placeData version (patterns version) bits p := by
    have hreserved : ¬ reserved version p = true := by
      rw [reserved, decide_eq_true_eq, mem_marks hv hr hc]
      exact hnot
    simp [applyMask, hr, hc, hreserved]
  have hwritten : writeFormat (size version) (applyMask version fn (placeData version (patterns version) bits)) mask p =
      applyMask version fn (placeData version (patterns version) bits) p :=
    writeAll_of_notMem fun hin => hnot (fixed_formatKeys hv (keys_writeFormat version mask ▸ hin))
  unfold drawn
  split
  case isTrue h7 =>
    have hfree : ∀ hin, False := fun hin => hnot (fixed_versionKeys hv h7 (keys_writeVersion version ▸ hin)).1
    rw [writeVersion, writeAll_of_notMem hfree, hwritten, hmasked]
  case isFalse => rw [hwritten, hmasked]

/-- The data is where it was placed. -/
theorem map_placeData (hv : Known version) (hlen : bits.length = (dataModules version).length) :
    (dataModules version).map (placeData version g bits) = bits.map Int.ofNat := by
  have hkeys : ((dataModules version).zipIdx.map fun pi => (pi.1, (bits.getD pi.2 0 : Int))).map Prod.fst =
      dataModules version := by
    rw [List.map_map]
    exact List.zipIdx_map_fst 0 _
  have hwritten := map_writeAll g (hkeys.symm ▸ nodup_dataModules hv)
  rw [hkeys] at hwritten
  rw [placeData, hwritten, List.map_map]
  refine List.ext_getElem (by simp [hlen]) fun i h _ => ?_
  rw [List.length_map, List.length_zipIdx] at h
  rw [List.getElem_map, List.getElem_map, List.getElem_zipIdx, Function.comp_apply, Nat.zero_add,
    List.getD_eq_getElem _ _ (by omega)]
  rfl

theorem maskOn_eq : ∀ k < 8, ∀ fn ∈ MASKS[k]?, fn = maskOn k := by
  intro k hk fn hfn
  interval_cases k <;> cases hfn <;> rfl

/-- The reader gets the bits. -/
theorem unmasked_drawn (hv : Known version) (hlen : bits.length = (dataModules version).length)
    (hbits : ∀ b ∈ bits, b < 2) :
    unmasked (matrix (size version) (drawn version bits mask (maskOn mask))) version mask = bits := by
  rw [unmasked, ← dataModules_eq hv]
  have hplaced := map_placeData (g := patterns version) hv hlen
  have hcell : ∀ p ∈ dataModules version,
      (moduleOf (matrix (size version) (drawn version bits mask (maskOn mask))) p
        + if maskOn mask p.1 p.2 then 1 else 0) % 2 = (placeData version (patterns version) bits p).toNat := by
    rintro ⟨r, c⟩ hp
    obtain ⟨hr, hc, -⟩ := (mem_dataModules hv).mp hp
    have hin : placeData version (patterns version) bits (r, c) ∈ bits.map Int.ofNat := hplaced ▸ List.mem_map_of_mem hp
    obtain ⟨b, hb, hval⟩ := List.mem_map.mp hin
    have hb2 := hbits b hb
    rw [moduleOf_matrix hr hc, drawn_data hv hp, ← hval]
    interval_cases b <;> cases maskOn mask r c <;> decide
  calc _ = (dataModules version).map (Int.toNat ∘ placeData version (patterns version) bits) :=
      List.map_congr_left hcell
    _ = (bits.map Int.ofNat).map Int.toNat := by rw [← List.map_map, hplaced]
    _ = bits := by
      rw [List.map_map]
      exact List.map_id'' (fun b => rfl) bits

/-! ## Format and version -/

theorem pushBits_eq (w n : Nat) : pushBits w n = (List.range n).reverse.map fun i => w >>> i &&& 1 := by
  induction n with
  | zero => rfl
  | succ n ih => rw [pushBits, ih, List.range_succ, List.reverse_append, List.reverse_singleton, List.map_append]; rfl

/-- A word is read where its bits are. -/
theorem wordAt_matrix {size n w : Nat} {place : Nat → Nat × Nat}
    (hin : ∀ i < n, (place i).1 < size ∧ (place i).2 < size)
    (hbit : ∀ i < n, g (place i) = bit w i) (hw : w < 2 ^ n) : wordAt (matrix size g) n place = w := by
  have hmodules : ((List.range n).reverse.map fun i => moduleOf (matrix size g) (place i)) = pushBits w n := by
    rw [pushBits_eq]
    refine List.map_congr_left fun i hi => ?_
    have hi : i < n := List.mem_range.mp (List.mem_reverse.mp hi)
    obtain ⟨hr, hc⟩ := hin i hi
    have hmod : w >>> i &&& 1 = 0 ∨ w >>> i &&& 1 = 1 := by
      rw [Nat.and_one_is_mod]
      exact Nat.mod_two_eq_zero_or_one _
    have heq : g ((place i).1, (place i).2) = bit w i := hbit i hi
    rw [← Prod.mk.eta (p := place i), moduleOf_matrix hr hc, heq, bit]
    rcases hmod with h | h <;> rw [h] <;> rfl
  rw [wordAt, hmodules, ofBits_pushBits, Nat.mod_eq_of_lt hw]

theorem formatBits_spec : ∀ k < 8, formatBits k < 2 ^ 15 ∧ FormatWord k (formatBits k) := by decide

theorem versionBits_spec : ∀ v < 21, versionBits v < 2 ^ 18 ∧ VersionWord v (versionBits v) := by decide

theorem drawn_format (hv : Known version) {p : Nat × Nat} {i : Nat} (hp : (p, i) ∈ formatModules (size version)) :
    drawn version bits mask fn p = bit (formatBits mask) i := by
  have hkey : p ∈ formatKeys version := List.mem_append_left _ (List.mem_map.mpr ⟨_, hp, rfl⟩)
  have hwritten : writeFormat (size version) (applyMask version fn (placeData version (patterns version) bits)) mask p =
      bit (formatBits mask) i :=
    writeAll_of_mem (keys_writeFormat version mask ▸ nodup_formatKeys hv)
      (List.mem_append_left _ (List.mem_map.mpr ⟨_, hp, rfl⟩))
  unfold drawn
  split
  case isTrue h7 =>
    rw [writeVersion, writeAll_of_notMem fun hin =>
      (fixed_versionKeys hv h7 (keys_writeVersion version ▸ hin)).2 hkey, hwritten]
  case isFalse => exact hwritten

theorem drawn_version (h7 : 7 ≤ version) {p : Nat × Nat} {i : Nat}
    (hp : (p, i) ∈ versionModules (size version)) : drawn version bits mask fn p = bit (versionBits version) i := by
  unfold drawn
  rw [if_pos h7]
  exact writeAll_of_mem (keys_writeVersion version ▸ nodup_versionKeys h7) (List.mem_map.mpr ⟨_, hp, rfl⟩)

/-- The areas of format and version have their words. -/
theorem labelled_drawn (hv : Known version) (hmask : mask < 8) :
    wordAt (matrix (size version) (drawn version bits mask fn)) 15 formatPlace = formatBits mask ∧
      Labelled (matrix (size version) (drawn version bits mask fn)) version mask := by
  obtain ⟨hlt, hword⟩ := formatBits_spec mask hmask
  obtain ⟨hvlt, hvword⟩ := versionBits_spec version hv.2
  have hformat : ∀ place : Nat → Nat × Nat, (∀ i < 15, (place i, i) ∈ formatModules (size version)) →
      wordAt (matrix (size version) (drawn version bits mask fn)) 15 place = formatBits mask := fun place hin =>
    wordAt_matrix (fun i hi => formatModules_lt hv (hin i hi)) (fun i hi => drawn_format hv (hin i hi)) hlt
  have hversion : 7 ≤ version → ∀ place : Nat → Nat × Nat, (∀ i < 18, (place i, i) ∈ versionModules (size version)) →
      wordAt (matrix (size version) (drawn version bits mask fn)) 18 place = versionBits version := fun h7 place hin =>
    wordAt_matrix (fun i hi => versionModules_lt h7 (hin i hi)) (fun i hi => drawn_version h7 (hin i hi)) hvlt
  have hone := hformat formatPlace fun i hi => formatModules_eq version ▸ List.mem_append_left _ (mem_placed hi)
  have htwo := hformat (formatPlace' version) fun i hi =>
    formatModules_eq version ▸ List.mem_append_right _ (mem_placed hi)
  refine ⟨hone, hone.symm ▸ hword, htwo.symm ▸ hword, fun h7 => ⟨?_, ?_⟩⟩
  · have hthree := hversion h7 (versionPlace version) fun i hi => mem_versionModules.mpr ⟨i, hi, .inl rfl⟩
    exact hthree.symm ▸ hvword
  · have hfour := hversion h7 (fun i => (versionPlace version i).swap) fun i hi =>
      mem_versionModules.mpr ⟨i, hi, .inr rfl⟩
    exact hfour.symm ▸ hvword

/-! ## The reader -/

/-- A matrix is a symbol of the version under the mask, and says the bytes. -/
structure Symbol (m : List (List Nat)) (version mask : Nat) (data : Bytes) : Prop where
  known : Known version
  mask_lt : mask < 8
  square : m.length = size version ∧ ∀ row ∈ m, row.length = size version
  /-- format and version areas have their BCH words -/
  labelled : Labelled m version mask
  /-- the modules for data: each that is not reserved, once -/
  modules : (order version).Nodup ∧
    ∀ r c, (r, c) ∈ order version ↔ r < size version ∧ c < size version ∧ ¬ Fixed version r c
  /-- in them, without the mask, all codewords and then the remainder; the blocks of the codewords are intact -/
  codewords : ∃ stream : List Nat, stream.length = totalCodewords version ∧
    unmasked m version mask = stream.flatMap (pushBits · 8) ++ List.replicate (spec version).remainder 0 ∧
    ∀ b ∈ blocks version stream, Intact (spec version).ec b
  read : Standard.read m = some data

theorem finalBits_lt (version : Nat) (data : Bytes) : ∀ b ∈ finalBits version data, b < 2 := by
  intro b hb
  rw [finalBits, List.mem_append] at hb
  rcases hb with hb | hb
  · obtain ⟨c, -, hc⟩ := List.mem_flatMap.mp hb
    exact pushBits_lt _ _ b hc
  · rw [List.eq_of_mem_replicate hb]
    decide

theorem length_bytes (l : List Nat) : (l.flatMap (pushBits · 8)).length = 8 * l.length := by
  induction l with
  | nil => rfl
  | cons c l ih => rw [List.flatMap_cons, List.length_append, ih, length_pushBits, List.length_cons]; omega

theorem length_finalBits (hv : Known version) (hfits : Fits version data) :
    (finalBits version data).length = (dataModules version).length := by
  rw [length_dataModules hv, finalBits, List.length_append, length_bytes, List.length_replicate, length_stream hv hfits]

theorem square_matrix (n : Nat) (g : Grid) : (matrix n g).length = n ∧ ∀ row ∈ matrix n g, row.length = n := by
  constructor
  · simp [matrix]
  · intro row hrow
    obtain ⟨r, -, rfl⟩ := List.mem_map.mp hrow
    simp

/-- What is drawn of bytes that fit is their symbol. -/
theorem symbol_drawn (hv : Known version) (hfits : Fits version data) (hmask : mask < 8) :
    Symbol (matrix (size version) (drawn version (finalBits version data) mask (maskOn mask))) version mask data := by
  set m := matrix (size version) (drawn version (finalBits version data) mask (maskOn mask)) with hm
  have hsquare : m.length = size version ∧ ∀ row ∈ m, row.length = size version := square_matrix _ _
  obtain ⟨hword, hlabelled⟩ : wordAt m 15 formatPlace = formatBits mask ∧ Labelled m version mask :=
    labelled_drawn hv hmask
  have hunmasked : unmasked m version mask = finalBits version data :=
    unmasked_drawn hv (length_finalBits hv hfits) (finalBits_lt version data)
  have hintact : ∀ b ∈ blocks version (stream version data), Intact (spec version).ec b := by
    rw [blocks_stream hv hfits]
    intro b hb
    obtain ⟨j, hj, rfl⟩ := List.mem_map.mp hb
    exact intact_whole hv hfits (List.mem_range.mp hj)
  refine ⟨hv, hmask, hsquare, hlabelled, ⟨?_, fun r c => ?_⟩,
    ⟨stream version data, length_stream hv hfits, hunmasked, hintact⟩, ?_⟩
  · rw [← dataModules_eq hv]
    exact nodup_dataModules hv
  · rw [← dataModules_eq hv]
    exact mem_dataModules hv
  · have hversion : (m.length - 17) / 4 = version := by
      rw [hsquare.1, size]
      omega
    have hmaskOf : ((wordAt m 15 formatPlace ^^^ 0b101010000010010) >>> 10) % 8 = mask := by
      rw [hword]
      exact (formatBits_spec mask hmask).2.2.2.2
    have hstream : toBytes ((unmasked m version mask).take (8 * totalCodewords version)) = stream version data := by
      rw [hunmasked, finalBits, List.take_left' (by rw [length_bytes, length_stream hv hfits]),
        toBytes_flatMap (stream_lt hv hfits)]
    obtain ⟨rest, hbits⟩ := bits_codewords hfits
    unfold Standard.read
    simp only [hversion, hmaskOf, hstream, dataOf_blocks hv hfits, hbits, readSegment_segment hv hfits]
    rw [if_pos ⟨hv, hsquare⟩, if_pos hlabelled, if_pos hintact]

/-! ## The loop over the masks -/

theorem turn_ok (version : Nat) (bits : List Nat) (best : Option (Grid × Nat)) (hmask : mask < 8) :
    ∃ b, turn version bits best mask = .ok (some b) ∧
      (b.1 = drawn version bits mask (maskOn mask) ∨ best = some b) := by
  obtain ⟨fn, hfn⟩ : ∃ fn, MASKS[mask]? = some fn := ⟨_, List.getElem?_eq_getElem hmask⟩
  obtain rfl := maskOn_eq mask hmask fn hfn
  rw [turn, hfn]
  cases best with
  | none => exact ⟨_, rfl, .inl rfl⟩
  | some b =>
      dsimp only
      split
      · exact ⟨_, rfl, .inl rfl⟩
      · exact ⟨b, rfl, .inr rfl⟩

/-- The best grid is drawn under one of the masks. -/
theorem foldlM_turn {masks : List Nat} {best : Option (Grid × Nat)} (hmasks : ∀ k ∈ masks, k < 8)
    (hsome : masks ≠ [] ∨ best.isSome) {Good : Grid → Prop} (hbest : ∀ b ∈ best, Good b.1)
    (hgood : ∀ k ∈ masks, Good (drawn version bits k (maskOn k))) :
    ∃ b, masks.foldlM (turn version bits) best = .ok (some b) ∧ Good b.1 := by
  induction masks generalizing best with
  | nil =>
      obtain ⟨b, rfl⟩ := Option.isSome_iff_exists.mp (hsome.resolve_left (absurd rfl))
      exact ⟨b, rfl, hbest b rfl⟩
  | cons k masks ih =>
      rw [List.forall_mem_cons] at hmasks hgood
      obtain ⟨b, hturn, hb⟩ := turn_ok version bits best hmasks.1
      rw [List.foldlM_cons, hturn]
      refine ih hmasks.2 (.inr rfl) (fun b' hb' => ?_) hgood.2
      obtain rfl := Option.some.inj hb'
      rcases hb with hb | hb
      · exact hb ▸ hgood.1
      · exact hbest b hb

/-- Every byte string that is not too long is drawn as a symbol that the standard's reader gets it back from; a mask
that is asked for is used. -/
theorem qrMatrix_decodes (data : Bytes) (forceMask : Option Nat) :
    match qrMatrix data forceMask with
    | .ok m => data.length ≤ 858 ∧ ∃ version mask, (∀ k ∈ forceMask, mask = k) ∧ Symbol m version mask data
    | .error _ => 858 < data.length ∨ ∃ k ∈ forceMask, 8 ≤ k := by
  unfold qrMatrix
  dsimp only
  rcases pickVersion_spec data with ⟨hnone, hlong⟩ | ⟨hv, hfits, hshort⟩
  · rw [if_pos hnone]
    exact .inl hlong
  · have hpos : pickVersion data.length ≠ 0 := Nat.one_le_iff_ne_zero.mp hv.1
    rw [if_neg hpos]
    set version := pickVersion data.length
    set bits := finalBits version data
    let Good (g : Grid) : Prop := ∃ v mask, (∀ k ∈ forceMask, mask = k) ∧ Symbol (matrix (size version) g) v mask data
    have hrun : ∀ masks : List Nat, masks ≠ [] → (∀ k ∈ masks, k < 8) → (∀ k' ∈ forceMask, ∀ k ∈ masks, k = k') →
        ∃ b, masks.foldlM (turn version bits) none = .ok (some b) ∧ Good b.1 := by
      intro masks hne hlt hforce
      have hgood : ∀ k ∈ masks, Good (drawn version bits k (maskOn k)) := fun k hk =>
        ⟨_, k, fun k' hk' => hforce k' hk' k hk, symbol_drawn hv hfits (hlt k hk)⟩
      exact foldlM_turn hlt (.inl hne) (fun b hb => nomatch hb) hgood
    cases forceMask with
    | none =>
        obtain ⟨b, hb, hsymbol⟩ := hrun (List.range 8) (by decide) (fun k hk => List.mem_range.mp hk) (by simp)
        rw [hb]
        exact ⟨hshort, hsymbol⟩
    | some k =>
        by_cases hk : k < 8
        · obtain ⟨b, hb, hsymbol⟩ := hrun [k] (List.cons_ne_nil _ _) (by simpa using hk) (by simp)
          dsimp only
          rw [hb]
          exact ⟨hshort, hsymbol⟩
        · have hnone : MASKS[k]? = none := List.getElem?_eq_none (Nat.le_of_not_lt hk)
          have hfold : [k].foldlM (turn version bits) none = .error "fn is not a function" := by
            rw [List.foldlM_cons, turn, hnone]
            rfl
          dsimp only
          rw [hfold]
          exact .inr ⟨k, rfl, Nat.le_of_not_lt hk⟩

end EncedoChat.Qr
