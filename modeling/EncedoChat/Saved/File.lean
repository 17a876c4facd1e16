import EncedoChat.Saved.Name
import Mathlib.Data.Finset.Card

/-!
# Where a received file is saved

`files.ts`: the first free path for a name in the download directory, and what `saveFile` writes there.
-/

namespace EncedoChat.Saved

open Units PosixPath

/-- The paths that exist, as the bytes the platform has them in. -/
abbrev Disk := List (Bytes × Bytes)

def existsSync (disk : Disk) (path : Units) : Bool := disk.any fun f => f.1 = utf8 path

/-- `${stem} (${i})${ext}` -/
def numbered (stem ext : Units) (i : Nat) : Units := stem ++ (0x20 :: 0x28 :: (num i ++ 0x29 :: ext))

def stemOf (name : Units) : Units := name.take (name.length - (extname name).length)

/-- The loop of `freePath`, which has not ended where the fuel runs out. -/
def findFree (disk : Disk) (dir stem ext : Units) : Nat → Units → Nat → Option Units
  | 0, _, _ => none
  | fuel + 1, p, i =>
    if existsSync disk p then findFree disk dir stem ext fuel (join dir (numbered stem ext i)) (i + 1) else some p

def freePath (fuel : Nat) (disk : Disk) (dir name : Units) : Option Units :=
  findFree disk dir (stemOf name) (extname name) fuel (join dir name) 2

structure FileMeta where
  name : Units
  exp : ℚ

inductive Failure where
  /-- `plik wygasł - magazyn trzyma pliki ok. 5 minut; poproś o ponowne wysłanie` -/
  | expired
  /-- `nie da się odszyfrować pliku - zły klucz albo uszkodzona treść (nic nie zapisano)` -/
  | unreadable
  deriving DecidableEq

/-- What is written, and where, once the bytes are fetched and opened; `none` while `freePath` runs. -/
def saveFile (fuel : Nat) (disk : Disk) (dir : Units) (now : ℚ) (m : FileMeta) (plain : Option Bytes) :
    Except Failure (Option (Units × Disk)) :=
  if m.exp ≠ 0 ∧ m.exp < now then .error .expired
  else match plain with
    | none => .error .unreadable
    | some plain => .ok ((freePath fuel disk dir (safeName m.name)).map fun path =>
        (path, (utf8 path, plain) :: disk))

/-! ## The names tried -/

/-- The names in the order they are tried. -/
def candidate (name : Units) (i : Nat) : Units := if i = 1 then name else numbered (stemOf name) (extname name) i

/-- The first of them that is free. -/
structure FirstFree (disk : Disk) (dir name : Units) (i : Nat) : Prop where
  pos : 1 ≤ i
  free : existsSync disk (join dir (candidate name i)) = false
  taken : ∀ j, 1 ≤ j → j < i → existsSync disk (join dir (candidate name j)) = true

theorem FirstFree.unique {disk : Disk} {dir name : Units} {i j : Nat} (hi : FirstFree disk dir name i)
    (hj : FirstFree disk dir name j) : i = j := by
  rcases Nat.lt_trichotomy i j with h | h | h
  · exact absurd (hj.taken i hi.pos h) (by simp [hi.free])
  · exact h
  · exact absurd (hi.taken j hj.pos h) (by simp [hj.free])

theorem findFree_spec {disk : Disk} {dir name : Units} (fuel k : Nat) (hk : 1 ≤ k)
    (htaken : ∀ j, 1 ≤ j → j < k → existsSync disk (join dir (candidate name j)) = true) :
    (∀ path, findFree disk dir (stemOf name) (extname name) fuel (join dir (candidate name k)) (k + 1) = some path →
      ∃ i, FirstFree disk dir name i ∧ path = join dir (candidate name i)) ∧
    (findFree disk dir (stemOf name) (extname name) fuel (join dir (candidate name k)) (k + 1) = none →
      ∀ j, 1 ≤ j → j < k + fuel → existsSync disk (join dir (candidate name j)) = true) := by
  induction fuel generalizing k with
  | zero => exact ⟨by simp [findFree], fun _ => htaken⟩
  | succ fuel ih =>
      rw [findFree]
      split
      · rename_i hexists
        have hnext : candidate name (k + 1) = numbered (stemOf name) (extname name) (k + 1) := if_neg (by omega)
        have htaken' : ∀ j, 1 ≤ j → j < k + 1 → existsSync disk (join dir (candidate name j)) = true := by
          intro j hj hjk
          rcases Nat.lt_succ_iff_lt_or_eq.mp hjk with h | rfl
          · exact htaken j hj h
          · exact hexists
        have := ih (k + 1) (by omega) htaken'
        rw [hnext] at this
        rw [Nat.add_comm fuel 1, ← Nat.add_assoc]
        exact this
      · rename_i hfree
        refine ⟨fun path h => ⟨k, ⟨hk, by simpa using hfree, htaken⟩, (Option.some.inj h).symm⟩, by simp⟩

theorem freePath_spec (fuel : Nat) (disk : Disk) (dir name : Units) :
    (∀ path, freePath fuel disk dir name = some path →
      ∃ i, FirstFree disk dir name i ∧ path = join dir (candidate name i)) ∧
    (freePath fuel disk dir name = none →
      ∀ j, 1 ≤ j → j < 1 + fuel → existsSync disk (join dir (candidate name j)) = true) :=
  findFree_spec fuel 1 le_rfl fun j hj hj1 => by omega

/-! ## They are told apart -/

theorem flat_extname (name : Units) : SLASH ∉ extname name := by
  rw [extname]
  split
  · simp
  · intro h
    rcases List.mem_cons.mp h with h | h
    · exact absurd h (by decide)
    · exact flat_basename name ((List.rtakeWhile_suffix _ _).subset h)

theorem num_injective {i j : Nat} (h : num i = num j) : i = j := by
  rw [← JsonText.digitsValue_num i, h, JsonText.digitsValue_num]

theorem read_ascii {s : Units} (h : ∀ u ∈ s, Ascii u) : ((utf8 s).map fun b => UInt16.ofNat b.toNat) = s := by
  induction s with
  | nil => rfl
  | cons u s ih =>
      have hu := h u List.mem_cons_self
      have hn : u.toNat < 0x80 := UInt16.lt_iff_toNat_lt.mp hu
      have hone : utf8Point [u] = [UInt8.ofNat u.toNat] := by rw [utf8Point, if_pos hn]
      have hback : UInt16.ofNat (UInt8.ofNat u.toNat).toNat = u := by
        rw [UInt8.toNat_ofNat_of_lt' (by simp only [UInt8.size]; omega), UInt16.ofNat_toNat]
      rw [utf8, points_cons hu.not_high, List.flatMap_cons, hone, List.map_append, ← utf8,
        ih fun v hv => h v (List.mem_cons_of_mem u hv), List.map_singleton, hback, List.singleton_append]

theorem clean_num_append (i : Nat) (t : Units) : Clean (num i ++ t) := by
  intro u hu
  rw [List.head?_append_of_ne_nil _ (num_ne_nil i)] at hu
  exact clean_num i u hu

theorem utf8_numbered (stem ext : Units) (i : Nat) : utf8 (numbered stem ext i) =
    utf8 stem ++ ([0x20, 0x28] ++ (utf8 (num i) ++ utf8 (0x29 :: ext))) := by
  have hclose : Clean (0x29 :: ext) := clean_cons (by decide : (_ : UInt16) < 0x80) _
  have hopen : utf8 [0x20, 0x28] = [0x20, 0x28] := by decide
  have hblank : Clean ([0x20, 0x28] ++ (num i ++ 0x29 :: ext)) := clean_cons (by decide : (_ : UInt16) < 0x80) _
  rw [← utf8_append hclose, ← hopen, ← utf8_append (clean_num_append i _), ← utf8_append hblank]
  rfl

/-- A string as what ends in a slash, or nothing, and what has none. -/
theorem split_slash (s : Units) : ∃ a b, s = a ++ b ∧ Open a ∧ SLASH ∉ b := by
  refine ⟨s.rdropWhile (· ≠ SLASH), s.rtakeWhile (· ≠ SLASH), List.rdropWhile_append_rtakeWhile.symm, ?_, ?_⟩
  · by_cases hne : s.rdropWhile (· ≠ SLASH) = []
    · exact .inl hne
    · have hlast := List.rdropWhile_last_not (p := (· ≠ SLASH)) s hne
      refine .inr ⟨(s.rdropWhile (· ≠ SLASH)).dropLast, ?_⟩
      have hsplit := List.dropLast_append_getLast hne
      rw [show (s.rdropWhile (· ≠ SLASH)).getLast hne = SLASH by simpa using hlast] at hsplit
      exact hsplit.symm
  · intro h
    simpa using List.mem_rtakeWhile_imp h

theorem isName_numbered {stem ext : Units} (hstem : SLASH ∉ stem) (hext : SLASH ∉ ext) (i : Nat) :
    IsName (numbered stem ext i) := by
  have hblank : (0x20 : UInt16) ∈ numbered stem ext i := by simp [numbered]
  refine ⟨List.ne_nil_of_mem hblank, ?_, ?_, ?_⟩
  · intro h
    rw [h] at hblank
    exact absurd hblank (by decide)
  · intro h
    rw [h] at hblank
    exact absurd hblank (by decide)
  · have hnum : SLASH ∉ num i := fun h => absurd (JsonText.isDigit_num h) (by decide)
    have hne : SLASH ≠ 0x20 ∧ SLASH ≠ 0x28 ∧ SLASH ≠ 0x29 := by decide
    simp [numbered, hstem, hext, hnum, hne]

/-- Two numbers, two files, whatever the name was. -/
theorem path_injective (dir name : Units) {i j : Nat} (hi : 2 ≤ i) (hj : 2 ≤ j)
    (h : utf8 (join dir (candidate name i)) = utf8 (join dir (candidate name j))) : i = j := by
  obtain ⟨a, b, hstem, ha, hb⟩ := split_slash (stemOf name)
  have hpath : ∀ k, 2 ≤ k → join dir (candidate name k) =
      numbered (lead (slashed dir ++ a) ++ b) (extname name) k := by
    intro k hk
    have hsplit : candidate name k = a ++ numbered b (extname name) k := by
      rw [candidate, if_neg (by omega), hstem, numbered, numbered, List.append_assoc]
    rw [hsplit, join_append dir ha (isName_numbered hb (flat_extname name) k), numbered, numbered, List.append_assoc]
  rw [hpath i hi, hpath j hj, utf8_numbered, utf8_numbered] at h
  have hnum := List.append_cancel_right (List.append_cancel_left (List.append_cancel_left h))
  apply num_injective
  rw [← read_ascii fun u => ascii_num (n := i) (u := u), ← read_ascii fun u => ascii_num (n := j) (u := u), hnum]

/-- The search ends, on every disk and for every name. -/
theorem exists_free (disk : Disk) (dir name : Units) : ∃ fuel path, freePath fuel disk dir name = some path := by
  refine ⟨disk.length + 3, Option.ne_none_iff_exists'.mp fun hnone => ?_⟩
  have htaken := (freePath_spec _ disk dir name).2 hnone
  have hmem : ∀ k, utf8 (join dir (candidate name (k + 2))) ∈ disk.map Prod.fst ∨ disk.length + 1 < k := by
    intro k
    rcases Nat.lt_or_ge (disk.length + 1) k with h | h
    · exact .inr h
    · have hexists := htaken (k + 2) (by omega) (by omega)
      rw [existsSync, List.any_eq_true] at hexists
      obtain ⟨f, hf, heq⟩ := hexists
      exact .inl (List.mem_map.mpr ⟨f, hf, of_decide_eq_true heq⟩)
  classical
  have hcard : (Finset.range (disk.length + 1)).card ≤ (disk.map Prod.fst).toFinset.card := by
    refine Finset.card_le_card_of_injOn (fun k => utf8 (join dir (candidate name (k + 2)))) (fun k hk => ?_)
      fun i hi j hj h => ?_
    · have hk := Finset.mem_range.mp hk
      exact List.mem_toFinset.mpr ((hmem k).resolve_right (by omega))
    · have := path_injective dir name (by omega) (by omega) h
      omega
  have hle := List.toFinset_card_le (disk.map Prod.fst)
  rw [Finset.card_range] at hcard
  rw [List.length_map] at hle
  omega

/-! ## The name of the file -/

theorem take_length_sub (a t : Units) : (a ++ t).take ((a ++ t).length - t.length) = a := by simp

theorem stem_extname {name : Units} (hflat : SLASH ∉ name) (hne : name ≠ []) :
    stemOf name ++ extname name = name ∧ stemOf name ≠ [] ∧ Clean (extname name) := by
  have hsplit : name.rdropWhile (· ≠ DOT) ++ name.rtakeWhile (· ≠ DOT) = name := List.rdropWhile_append_rtakeWhile
  rw [stemOf, extname, basename_flat hflat]
  split
  · simp [hne, Clean]
  · rename_i hlong
    rw [not_or, Nat.not_le] at hlong
    have hpos : name.rdropWhile (· ≠ DOT) ≠ [] := List.ne_nil_of_length_pos (by omega)
    have hlast := List.rdropWhile_last_not (p := (· ≠ DOT)) name hpos
    have hdot : (name.rdropWhile (· ≠ DOT)).dropLast ++ [DOT] = name.rdropWhile (· ≠ DOT) := by
      conv => rhs; rw [← List.dropLast_append_getLast hpos]
      rw [show (name.rdropWhile (· ≠ DOT)).getLast hpos = DOT by simpa using hlast]
    have hname : name = (name.rdropWhile (· ≠ DOT)).dropLast ++ DOT :: name.rtakeWhile (· ≠ DOT) := by
      conv => lhs; rw [← hsplit, ← hdot]
      simp
    have htake := take_length_sub (name.rdropWhile (· ≠ DOT)).dropLast (DOT :: name.rtakeWhile (· ≠ DOT))
    rw [← hname] at htake
    refine ⟨?_, ?_, ?_⟩
    · rw [htake, ← hname]
    · rw [htake]
      refine List.ne_nil_of_length_pos ?_
      rw [List.length_dropLast]
      omega
    · exact clean_cons (by decide : (_ : UInt16) < 0x80) _

/-- The bytes a number adds. -/
def added (i : Nat) : Nat := if i = 1 then 0 else 3 + (num i).length

/-- What the file is called: the safe name, or the safe name with its number. -/
structure Called (name f : Units) (i : Nat) : Prop where
  isName : (f ≠ [DOT] ∧ f ≠ [DOT, DOT]) → IsName f
  nonempty : f ≠ []
  head : f.head? = (safeName name).head?
  free : Free isReplaced f
  length : (utf8 f).length = bytes (basename name) + added i

theorem flat_of_free {s : Units} (h : Free isReplaced s) : SLASH ∉ s := by
  intro hmem
  have := h _ (mem_points_of_whole hmem ⟨by decide, by decide⟩)
  rw [replaced_slash] at this
  exact Bool.noConfusion this

theorem called (name : Units) (i : Nat) : Called name (candidate (safeName name) i) i := by
  have hfree := free_safeName name
  have hflat := flat_of_free hfree
  by_cases h : i = 1
  · rw [candidate, if_pos h]
    exact ⟨fun hf => ⟨safeName_ne_nil name, hf.1, hf.2, hflat⟩, safeName_ne_nil name, rfl, hfree,
      by rw [length_safeName, added, if_pos h, Nat.add_zero]⟩
  · obtain ⟨hsplit, hstem, hclean⟩ := stem_extname hflat (safeName_ne_nil name)
    rw [candidate, if_neg h]
    have hname : IsName (numbered (stemOf (safeName name)) (extname (safeName name)) i) :=
      isName_numbered (fun hs => hflat (List.mem_of_mem_take hs)) (flat_extname _) i
    refine ⟨fun _ => hname, hname.nonempty, ?_, ?_, ?_⟩
    · rw [numbered, List.head?_append_of_ne_nil _ hstem]
      conv => rhs; rw [← hsplit, List.head?_append_of_ne_nil _ hstem]
    · have hmiddle : Free isReplaced ([0x20, 0x28] ++ (num i ++ [0x29])) := by
        refine free_ascii fun u hu => ?_
        apply plain_unit
        rcases List.mem_append.mp hu with hu | hu
        · exact List.mem_append_left _ ((by simp : ([0x20, 0x28] : Units) ⊆ _) hu)
        · rcases List.mem_append.mp hu with hu | hu
          · obtain ⟨d, hd, rfl⟩ := mem_num hu
            exact plain_digit hd
          · exact List.mem_append_left _ ((by simp : ([0x29] : Units) ⊆ _) hu)
      have hext : Free isReplaced (extname (safeName name)) := Free.right hclean (hsplit ▸ hfree)
      have htail : Clean (([0x20, 0x28] ++ (num i ++ [0x29])) ++ extname (safeName name)) :=
        clean_cons (by decide : (_ : UInt16) < 0x80) _
      have hstem' : Free isReplaced (stemOf (safeName name)) := Free.take (fun u => not_replaced_high) hfree _
      simpa [numbered] using Free.append htail hstem' (Free.append hclean hmiddle hext)
    · have hlen := length_safeName name
      rw [← hsplit, length_utf8_append hclean] at hlen
      rw [utf8_numbered, added, if_neg h, ← hlen]
      simp only [List.length_append, length_num, length_utf8_cons (by decide : (0x29 : UInt16) < 0x80), List.length_cons,
        List.length_nil]
      omega

/-! ## Safe on the disk -/

/-- The path is free, directly inside the directory, and its last component is a name that no one hides behind. -/
structure SafeOn (disk : Disk) (dir path : Units) : Prop where
  free : existsSync disk path = false
  entry : ∃ f, Inside dir path f ∧ IsName f ∧ f.head? ≠ some DOT ∧ 0x5C ∉ f ∧ (∀ p ∈ points f, isControl p = false) ∧
    (utf8 f).length ≤ 255

/-- Nothing is saved: the file is past its time, or does not open. -/
def Refused (now : ℚ) (m : FileMeta) (plain : Option Bytes) : Prop := m.exp ≠ 0 ∧ m.exp < now ∨ plain = none

theorem safe_iff (disk : Disk) (dir name : Units) {i : Nat} (hi : FirstFree disk dir (safeName name) i) :
    SafeOn disk dir (join dir (candidate (safeName name) i)) ↔
      ¬ HidesDot (basename name) ∧ bytes (basename name) + added i ≤ 255 := by
  have hcalled := called name i
  have hflat := flat_of_free hcalled.free
  rw [← head_safeName, ← hcalled.head, ← hcalled.length]
  constructor
  · rintro ⟨-, f, hinside, -, hhead, -, -, hlen⟩
    obtain rfl := hinside.of_join hcalled.nonempty hflat
    exact ⟨hhead, hlen⟩
  · rintro ⟨hhead, hlen⟩
    have hname := hcalled.isName ⟨fun h => hhead (by rw [h]; rfl), fun h => hhead (by rw [h]; rfl)⟩
    refine ⟨hi.free, _, Inside.join dir hname, hname, hhead, fun hmem => ?_, fun p hp => ?_, hlen⟩
    · have hback := hcalled.free _ (mem_points_of_whole hmem ⟨by decide, by decide⟩)
      rw [isReplaced_unit] at hback
      exact absurd hback (by decide)
    · have hgood := hcalled.free p hp
      rw [isReplaced, Bool.or_eq_false_iff] at hgood
      exact hgood.1

/-- `freePath` ends; and where `saveFile` writes is safe for exactly the names that hide no dot behind blanks and are
short enough in bytes. -/
theorem saved_safe (disk : Disk) (dir : Units) (now : ℚ) (m : FileMeta) (plain : Option Bytes) :
    (∀ name, ∃ fuel path, freePath fuel disk dir name = some path) ∧
    ((∀ fuel path disk', saveFile fuel disk dir now m plain = .ok (some (path, disk')) → SafeOn disk dir path) ↔
      Refused now m plain ∨ ¬ HidesDot (basename m.name) ∧
        ∀ i, FirstFree disk dir (safeName m.name) i → bytes (basename m.name) + added i ≤ 255) := by
  refine ⟨exists_free disk dir, ?_⟩
  by_cases hexp : m.exp ≠ 0 ∧ m.exp < now
  · simp [saveFile, hexp, Refused]
  · cases plain with
    | none => simp only [saveFile, if_neg hexp, Refused, or_true, true_or, reduceCtorEq, false_implies, implies_true]
    | some plain =>
        have hsave : ∀ fuel path disk', saveFile fuel disk dir now m (some plain) = .ok (some (path, disk')) ↔
            freePath fuel disk dir (safeName m.name) = some path ∧ disk' = (utf8 path, plain) :: disk := by
          intro fuel path disk'
          rw [saveFile, if_neg hexp]
          simp only [Except.ok.injEq, Option.map_eq_some_iff, Prod.mk.injEq]
          constructor
          · rintro ⟨p, hp, rfl, rfl⟩
            exact ⟨hp, rfl⟩
          · rintro ⟨hp, rfl⟩
            exact ⟨path, hp, rfl, rfl⟩
        have hrefused : ¬ Refused now m (some plain) := by simp [Refused, hexp]
        rw [or_iff_right hrefused]
        obtain ⟨fuel, path, hpath⟩ := exists_free disk dir (safeName m.name)
        constructor
        · intro h
          obtain ⟨i, hi, rfl⟩ := (freePath_spec fuel disk dir (safeName m.name)).1 path hpath
          have hsafe := (safe_iff disk dir m.name hi).mp (h fuel _ _ ((hsave _ _ _).mpr ⟨hpath, rfl⟩))
          exact ⟨hsafe.1, fun j hj => hi.unique hj ▸ hsafe.2⟩
        · rintro ⟨hdot, hlen⟩ fuel path disk' h
          obtain ⟨i, hi, rfl⟩ := (freePath_spec fuel disk dir (safeName m.name)).1 path ((hsave _ _ _).mp h).1
          exact (safe_iff disk dir m.name hi).mpr ⟨hdot, hlen i hi⟩

/-- `.bashrc`, which its sender wrote after a blank. -/
theorem saved_hidden : saveFile 1 [] [0x64] 0 ⟨[0x20, 0x2E, 0x62, 0x61, 0x73, 0x68, 0x72, 0x63], 0⟩ (some []) =
      .ok (some ([0x64, 0x2F, 0x2E, 0x62, 0x61, 0x73, 0x68, 0x72, 0x63],
        [([0x64, 0x2F, 0x2E, 0x62, 0x61, 0x73, 0x68, 0x72, 0x63], [])])) ∧
    ¬ SafeOn [] [0x64] [0x64, 0x2F, 0x2E, 0x62, 0x61, 0x73, 0x68, 0x72, 0x63] := by
  constructor
  · have hname : safeName [0x20, 0x2E, 0x62, 0x61, 0x73, 0x68, 0x72, 0x63] =
        [0x2E, 0x62, 0x61, 0x73, 0x68, 0x72, 0x63] := by
      simp only [safeName, plik]
      decide +kernel
    have hpath : freePath 1 [] [0x64] [0x2E, 0x62, 0x61, 0x73, 0x68, 0x72, 0x63] =
        some [0x64, 0x2F, 0x2E, 0x62, 0x61, 0x73, 0x68, 0x72, 0x63] := by
      decide +kernel
    have hbytes : utf8 [0x64, 0x2F, 0x2E, 0x62, 0x61, 0x73, 0x68, 0x72, 0x63] =
        [0x64, 0x2F, 0x2E, 0x62, 0x61, 0x73, 0x68, 0x72, 0x63] := by
      decide +kernel
    simp [saveFile, hname, hpath, hbytes]
  · rintro ⟨-, f, hinside, -, hhead, -⟩
    have hjoin : ([0x64, 0x2F, 0x2E, 0x62, 0x61, 0x73, 0x68, 0x72, 0x63] : Units) =
        join [0x64] [0x2E, 0x62, 0x61, 0x73, 0x68, 0x72, 0x63] := by
      decide +kernel
    rw [hjoin] at hinside
    rw [hinside.of_join (by decide) (by decide)] at hhead
    exact hhead rfl

end EncedoChat.Saved
