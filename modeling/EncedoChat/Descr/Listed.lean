import EncedoChat.Descr.Marker

/-!
# The groups a device lists

`deviceGroups` of `group.ts` reads every marker of the device in one loop.
-/

namespace EncedoChat.Descr

open Units

structure DeviceEntry where
  kid : Units
  pub : Bytes
  descr : Units

structure DeviceGroup where
  gidHex : Units
  gkPub : Bytes
  name : Units
  adminHint : Units
  kid : Units

/-- `hex(groupIdFromGK(pub))` -/
abbrev GroupId := Bytes → Units

def groupOf (gid : GroupId) (e : DeviceEntry) (f : MarkerFields) : DeviceGroup :=
  ⟨gid e.pub, e.pub, f.name, f.adminKid, e.kid⟩

/-- The loop over the markers; `none` throws. -/
def listed (gid : GroupId) (mine : Units) : List DeviceEntry → Option (List DeviceGroup)
  | [] => some []
  | e :: es => do
    match ← parseMarker e.descr with
    | some f => if f.ownerKid = mine then return groupOf gid e f :: (← listed gid mine es) else listed gid mine es
    | none => listed gid mine es

def Host.deviceGroups (host : Host) (gid : GroupId) (ownerKid : Units) (markers : List DeviceEntry) :
    Option (List DeviceGroup) :=
  listed gid ((host.toLowerCase ownerKid).take 8) markers

/-! ## What a well-formed marker is -/

/-- The members in a blob: nothing, or a hint for each and a checksum after them. -/
inductive IsRoster : Units → List Units → Nat → Prop where
  | empty : IsRoster [] [] 0
  | blob {s : Units} {hints : List Bytes} {crc : Bytes} : s ≠ [] → hints ≠ [] → (∀ h ∈ hints, h.length = 4) → crc.length = 4 →
      unb64url s = some (hints.flatten ++ crc) → IsRoster s (hints.map hex) (Bytes.toNat crc)

/-- Two hints of four bytes, a name without a colon, and a roster. -/
structure IsMarker (descr : Units) (f : MarkerFields) : Prop where
  text : ∃ owner admin blob rawOwner rawAdmin, descr = MARKER_PREFIX ++ owner ++ [COLON] ++ admin ++ [COLON] ++ f.name ++
    [COLON] ++ blob ∧ COLON ∉ owner ∧ COLON ∉ admin ∧ unb64url owner = some rawOwner ∧ unb64url admin = some rawAdmin ∧
    rawOwner.length = 4 ∧ rawAdmin.length = 4 ∧ f.ownerKid = hex rawOwner ∧ f.adminKid = hex rawAdmin ∧
    IsRoster blob f.hints f.crc
  name : COLON ∉ f.name

/-- The groups of the well-formed markers of one owner, in the order of the device. -/
inductive Picks (gid : GroupId) (mine : Units) : List DeviceEntry → List DeviceGroup → Prop where
  | nil : Picks gid mine [] []
  | own {e es f gs} : IsMarker e.descr f → f.ownerKid = mine → Picks gid mine es gs →
      Picks gid mine (e :: es) (groupOf gid e f :: gs)
  | other {e es gs} : (¬∃ f, IsMarker e.descr f ∧ f.ownerKid = mine) → Picks gid mine es gs → Picks gid mine (e :: es) gs

/-- Two hints that can be read, and after them a blob that is no base64. -/
def Breaks (descr : Units) : Prop :=
  ∃ owner admin name blob, descr = MARKER_PREFIX ++ owner ++ [COLON] ++ admin ++ [COLON] ++ name ++ [COLON] ++ blob ∧
    COLON ∉ owner ∧ COLON ∉ admin ∧ COLON ∉ name ∧ (hint owner).isSome = true ∧ (hint admin).isSome = true ∧
    blob ≠ [] ∧ unb64url blob = none

/-! ## What the reader makes of a text -/

variable {descr : Units} {f : MarkerFields}

/-- Four bytes at a time. -/
theorem flatten_slices (b : Bytes) (n : Nat) :
    ((List.range n).map fun i => Bytes.slice b (i * 4) (i * 4 + 4)).flatten = b.slice 0 (n * 4) := by
  induction n with
  | zero => simp [Bytes.slice]
  | succ n ih =>
      rw [List.range_succ, List.map_append, List.flatten_append, ih, List.map_singleton, List.flatten_singleton,
        Bytes.slice_append_slice b (Nat.zero_le _) (Nat.le_add_right _ _), Nat.succ_mul]

theorem roster_some {s : Units} {b : Bytes} {hints : List Units} {crc : Nat} (hs : s ≠ []) (hb : unb64url s = some b)
    (h : roster b = some (hints, crc)) : IsRoster s hints crc := by
  rw [roster] at h
  split at h
  · cases h
  · rename_i hlen
    simp only [Option.some.injEq, Prod.mk.injEq] at h
    obtain ⟨rfl, rfl⟩ := h
    have hn : b.length = (b.length - 4) / 4 * 4 + 4 := by omega
    have hsplit : ((List.range ((b.length - 4) / 4)).map fun i => Bytes.slice b (i * 4) (i * 4 + 4)).flatten ++
        b.slice ((b.length - 4) / 4 * 4) ((b.length - 4) / 4 * 4 + 4) = b := by
      rw [flatten_slices, Bytes.slice_append_slice b (Nat.zero_le _) (Nat.le_add_right _ _), ← hn, Bytes.slice_all]
    have hhints := List.map_map (f := fun i => Bytes.slice b (i * 4) (i * 4 + 4)) (g := hex) (l := List.range ((b.length - 4) / 4))
    rw [← hsplit] at hb
    refine hhints ▸ IsRoster.blob hs ?_ ?_ ?_ hb
    · rw [ne_eq, List.map_eq_nil_iff, List.range_eq_nil]
      omega
    · intro x hx
      obtain ⟨i, hi, rfl⟩ := List.mem_map.mp hx
      rw [List.mem_range] at hi
      rw [Bytes.length_slice b (Nat.le_add_right _ _) (by omega)]
      omega
    · rw [Bytes.length_slice b (Nat.le_add_right _ _) (by omega)]
      omega

theorem hint_some {field h : Units} : hint field = some h ↔ ∃ raw, unb64url field = some raw ∧ raw.length = 4 ∧ h = hex raw := by
  rw [hint]
  constructor
  · intro hh
    split at hh
    · split at hh
      · exact ⟨_, ‹_›, ‹_›, (Option.some.inj hh).symm⟩
      · cases hh
    · cases hh
  · rintro ⟨raw, hraw, hlen, rfl⟩
    rw [hraw]
    exact if_pos hlen

/-- A well-formed marker is read as what it says. -/
theorem IsMarker.parse (h : IsMarker descr f) : parseMarker descr = some (some f) := by
  obtain ⟨owner, admin, blob, rawOwner, rawAdmin, rfl, ho, ha, hro, hra, hlo, hla, hfo, hfa, hroster⟩ := h.text
  rw [parse_parts ho ha h.name, hint_some.mpr ⟨rawOwner, hro, hlo, rfl⟩, hint_some.mpr ⟨rawAdmin, hra, hla, rfl⟩]
  obtain ⟨ownerKid, adminKid, name, hints, crc⟩ := f
  obtain rfl : ownerKid = hex rawOwner := hfo
  obtain rfl : adminKid = hex rawAdmin := hfa
  dsimp only
  cases hroster with
  | empty => rfl
  | blob hne hhints hfour hcrc hb =>
      rw [if_neg hne, hb]
      dsimp only
      rw [roster_blocks hfour hhints hcrc]
      rfl

/-- The first field and what follows it. -/
theorem splitOn_two {s part next : Units} {parts : List Units} (h : s.splitOn COLON = part :: next :: parts) :
    ∃ rest, s = part ++ COLON :: rest ∧ COLON ∉ part ∧ rest.splitOn COLON = next :: parts := by
  by_cases hmem : COLON ∈ s
  · obtain ⟨a, rest, rfl, ha⟩ := List.eq_append_cons_of_mem hmem
    rw [splitOn_head ha, List.cons.injEq] at h
    obtain ⟨rfl, hrest⟩ := h
    exact ⟨rest, rfl, ha, hrest⟩
  · have hone : s.splitOn COLON = [s] := by
      apply List.splitOnP_eq_singleton
      intro u hu
      rw [beq_eq_false_iff_ne]
      rintro rfl
      exact hmem hu
    rw [hone] at h
    cases h

/-- A text that is cut in four by its colons, or none. -/
theorem fields_cases (descr : Units) : parseMarker descr = some none ∧ (∀ owner admin name blob, COLON ∉ owner → COLON ∉ admin →
      COLON ∉ name → descr ≠ MARKER_PREFIX ++ owner ++ [COLON] ++ admin ++ [COLON] ++ name ++ [COLON] ++ blob) ∨
    ∃ owner admin name blob, COLON ∉ owner ∧ COLON ∉ admin ∧ COLON ∉ name ∧
      descr = MARKER_PREFIX ++ owner ++ [COLON] ++ admin ++ [COLON] ++ name ++ [COLON] ++ blob := by
  by_cases hno : ∃ owner admin name blob, COLON ∉ owner ∧ COLON ∉ admin ∧ COLON ∉ name ∧
      descr = MARKER_PREFIX ++ owner ++ [COLON] ++ admin ++ [COLON] ++ name ++ [COLON] ++ blob
  · exact .inr hno
  · left
    refine ⟨?_, fun owner admin name blob ho ha hn he => hno ⟨owner, admin, name, blob, ho, ha, hn, he⟩⟩
    rw [parseMarker]
    split
    · rename_i hpre
      obtain ⟨s, rfl⟩ := List.isPrefixOf_iff_prefix.mp hpre
      rw [List.drop_left]
      split
      · rename_i owner admin name part parts hparts
        obtain ⟨rest, rfl, ho, hparts⟩ := splitOn_two hparts
        obtain ⟨rest, rfl, ha, hparts⟩ := splitOn_two hparts
        obtain ⟨rest, rfl, hn, -⟩ := splitOn_two hparts
        exact absurd ⟨owner, admin, name, rest, ho, ha, hn, by simp⟩ hno
      · rfl
    · rfl

/-- What is read as a marker is one. -/
theorem isMarker_of_parse (h : parseMarker descr = some (some f)) : IsMarker descr f := by
  rcases fields_cases descr with ⟨hnone, -⟩ | ⟨owner, admin, name, blob, ho, ha, hn, rfl⟩
  · rw [hnone] at h
    cases h
  · rw [parse_parts ho ha hn] at h
    split at h
    · rename_i ownerKid adminKid hho hha
      obtain ⟨rawOwner, hro, hlo, hfo⟩ := hint_some.mp hho
      obtain ⟨rawAdmin, hra, hla, hfa⟩ := hint_some.mp hha
      split at h
      · rename_i hempty
        cases h
        exact ⟨⟨owner, admin, blob, rawOwner, rawAdmin, rfl, ho, ha, hro, hra, hlo, hla, hfo, hfa, hempty ▸ .empty⟩, hn⟩
      · rename_i hne
        split at h
        · cases h
        · rename_i b hb
          rw [Option.some.injEq, Option.map_eq_some_iff] at h
          obtain ⟨r, hr, rfl⟩ := h
          exact ⟨⟨owner, admin, blob, rawOwner, rawAdmin, rfl, ho, ha, hro, hra, hlo, hla, hfo, hfa, roster_some hne hb hr⟩,
            hn⟩
    · cases h

/-- The reader throws on nothing but a blob that is no base64. -/
theorem parse_none_iff (descr : Units) : parseMarker descr = none ↔ Breaks descr := by
  constructor
  · intro h
    rcases fields_cases descr with ⟨hnone, -⟩ | ⟨owner, admin, name, blob, ho, ha, hn, rfl⟩
    · rw [hnone] at h
      cases h
    · rw [parse_parts ho ha hn] at h
      split at h
      · rename_i ownerKid adminKid hho hha
        split at h
        · cases h
        · rename_i hne
          split at h
          · exact ⟨owner, admin, name, blob, rfl, ho, ha, hn, by simp [hho], by simp [hha], hne, ‹_›⟩
          · cases h
      · cases h
  · rintro ⟨owner, admin, name, blob, rfl, ho, ha, hn, hho, hha, hne, hb⟩
    obtain ⟨ownerKid, hho⟩ := Option.isSome_iff_exists.mp hho
    obtain ⟨adminKid, hha⟩ := Option.isSome_iff_exists.mp hha
    rw [parse_parts ho ha hn, hho, hha]
    dsimp only
    rw [if_neg hne, hb]

/-! ## The list of a device -/

variable {gid : GroupId} {mine : Units}

theorem listed_picks {es : List DeviceEntry} {gs : List DeviceGroup} (h : listed gid mine es = some gs) :
    Picks gid mine es gs := by
  induction es generalizing gs with
  | nil =>
      cases h
      exact .nil
  | cons e es ih =>
      rw [listed, Option.bind_eq_bind, Option.bind_eq_some_iff] at h
      obtain ⟨r, hr, h⟩ := h
      have hother : (∀ f, r = some f → f.ownerKid ≠ mine) → ¬∃ f, IsMarker e.descr f ∧ f.ownerKid = mine := by
        rintro hno ⟨f, hf, hmine⟩
        rw [hf.parse, Option.some.injEq] at hr
        exact hno f hr.symm hmine
      cases r with
      | none => exact .other (hother fun f hf => by cases hf) (ih h)
      | some f =>
          dsimp only at h
          split at h
          · rename_i hmine
            rw [Option.bind_eq_bind, Option.bind_eq_some_iff] at h
            obtain ⟨gs', hgs', h⟩ := h
            cases h
            exact .own (isMarker_of_parse hr) hmine (ih hgs')
          · rename_i hmine
            refine .other (hother ?_) (ih h)
            rintro f' hf'
            cases hf'
            exact hmine

theorem listed_isSome (gid : GroupId) (mine : Units) {es : List DeviceEntry} : (∃ gs, listed gid mine es = some gs) ↔ ∀ e ∈ es, ¬Breaks e.descr := by
  induction es with
  | nil => simp [listed]
  | cons e es ih =>
      rw [List.forall_mem_cons, ← ih, ← parse_none_iff, listed]
      cases hr : parseMarker e.descr with
      | none => simp
      | some r =>
          cases r with
          | none => simp
          | some f =>
              by_cases hmine : f.ownerKid = mine
              · simp [hmine, Option.bind_eq_some_iff]
              · simp [hmine]

/-- The list has exactly the groups of the owner's markers, as long as no marker of the device has a broken blob. -/
theorem deviceGroups_iff (host : Host) (gid : GroupId) (ownerKid : Units) (markers : List DeviceEntry) :
    (∃ gs, host.deviceGroups gid ownerKid markers = some gs ∧
      Picks gid ((host.toLowerCase ownerKid).take 8) markers gs) ↔ ∀ e ∈ markers, ¬Breaks e.descr := by
  rw [← listed_isSome gid ((host.toLowerCase ownerKid).take 8)]
  constructor
  · rintro ⟨gs, h, -⟩
    exact ⟨gs, h⟩
  · rintro ⟨gs, h⟩
    exact ⟨gs, h, listed_picks h⟩

/-- A blob of five characters hides every group. -/
theorem deviceGroups_not_all : ¬∀ (host : Host) (gid : GroupId) ownerKid markers, ∃ gs,
    host.deviceGroups gid ownerKid markers = some gs ∧ Picks gid ((host.toLowerCase ownerKid).take 8) markers gs := by
  intro h
  obtain ⟨gs, hgs, -⟩ := h asciiHost (fun _ => []) [] [⟨[], [], ascii "ETSEIC:chan1:AAAAAA:AAAAAA:x:AAAAA"⟩]
  have hbreaks : Breaks (ascii "ETSEIC:chan1:AAAAAA:AAAAAA:x:AAAAA") :=
    ⟨ascii "AAAAAA", ascii "AAAAAA", ascii "x", ascii "AAAAA", by decide, by decide, by decide, by decide, by decide,
      by decide, by decide, by decide⟩
  exact (listed_isSome _ _).mp ⟨gs, hgs⟩ _ List.mem_cons_self hbreaks

end EncedoChat.Descr
