import EncedoChat.Lib.Bytes

/-!
# Reading a multipart body

What stands before the first delimiter line is discarded; each part is its headers up to a blank line, and its content
up to the next delimiter; the closing delimiter ends the body. A delimiter is a line break and two hyphens before the
boundary, and blanks and a line break after it.
-/

namespace EncedoChat.Multipart

/-- A boundary comes from a header line, so there is no line break in it. -/
structure Boundary where
  chars : Bytes
  plain : (13 : UInt8) ∉ chars

def CRLF : Bytes := [13, 10]

def SEP : Bytes := [13, 10, 13, 10]

/-- What stands up to the first blank line, with it, and what stands after. -/
def blankLine : Bytes → Option (Bytes × Bytes)
  | [] => none
  | x :: xs =>
    if SEP <+: x :: xs then some (SEP, (x :: xs).drop 4)
    else (blankLine xs).map (fun r => (x :: r.1, r.2))

inductive Mark where
  | opens
  | closes
  deriving DecidableEq

def isBlank (x : UInt8) : Bool := x = 32 || x = 9

/-- The rest of a delimiter line, after the boundary. -/
def markAfter (s : Bytes) : Option (Mark × Bytes) :=
  if [45, 45] <+: s then some (.closes, s.drop 2)
  else if CRLF <+: s.dropWhile isBlank then some (.opens, s.dropWhile isBlank)
  else none

def delim (b : Boundary) : Bytes := 13 :: 10 :: 45 :: 45 :: b.chars

/-- A delimiter, if one stands here; what follows an opening one begins with the break of its line. -/
def markAt (b : Boundary) (s : Bytes) : Option (Mark × Bytes) :=
  if delim b <+: s then markAfter (s.drop (delim b).length) else none

/-- What stands before the next delimiter, and the delimiter. -/
def cutAt (b : Boundary) : Bytes → Bytes × Option (Mark × Bytes)
  | [] => ([], none)
  | x :: xs =>
    match markAt b (x :: xs) with
    | some m => ([], some m)
    | none => (x :: (cutAt b xs).1, (cutAt b xs).2)

/-- The contents of the parts after an opening delimiter. The break before a delimiter may be that of the blank line. -/
def contents (b : Boundary) : Nat → Bytes → List Bytes
  | 0, _ => []
  | n + 1, s =>
    match blankLine s with
    | none => []
    | some (_, after) =>
      let c := cutAt b (CRLF ++ after)
      c.1.drop 2 :: (match c.2 with
        | some (.opens, rest) => contents b n rest
        | _ => [])

/-- The parts that a delimiter begins. -/
def partsFrom (b : Boundary) : Option (Mark × Bytes) → List Bytes
  | some (.opens, rest) => contents b rest.length rest
  | _ => []

/-- The contents of a body's parts. -/
def parts (b : Boundary) (body : Bytes) : List Bytes := partsFrom b (cutAt b (CRLF ++ body)).2

/-! ## Where things stand -/

section
variable {b : Boundary} {s t after rest : Bytes} {m : Mark}

theorem blankLine_some {before : Bytes} (h : blankLine s = some (before, after)) : s = before ++ after ∧ SEP <:+ before := by
  induction s generalizing before with
  | nil => cases h
  | cons x xs ih =>
      rw [blankLine] at h
      split at h
      · rename_i hsep
        cases h
        obtain ⟨t, ht⟩ := hsep
        rw [← ht]
        exact ⟨rfl, List.suffix_rfl⟩
      · obtain ⟨⟨before', after'⟩, hxs, he⟩ := Option.map_eq_some_iff.mp h
        cases he
        obtain ⟨hs, hend⟩ := ih hxs
        exact ⟨congrArg _ hs, hend.trans (List.suffix_cons ..)⟩

/-- A part of what stands up to the first blank line, that has the line in it, has it at its end and nowhere before. -/
theorem blankLine_suffix {before r : Bytes} (h : blankLine s = some (before, after)) (hr : r <:+ before)
    (hlen : 4 ≤ r.length) (tail : Bytes) : blankLine (r ++ tail) = some (r, tail) := by
  induction s generalizing before r with
  | nil => cases h
  | cons x xs ih =>
      rw [blankLine] at h
      split at h
      · cases h
        obtain rfl : r = SEP := hr.eq_of_length_le hlen
        rfl
      · rename_i hsep
        obtain ⟨⟨before', after'⟩, hxs, he⟩ := Option.map_eq_some_iff.mp h
        cases he
        rcases List.suffix_cons_iff.mp hr with rfl | hr
        · -- all of it: no blank line at its first place
          have hend := (blankLine_some hxs).2
          have hfour : 4 ≤ before'.length := hend.length_le
          have hno : ¬SEP <+: x :: (before' ++ tail) := by
            intro hpre
            apply hsep
            rw [(blankLine_some hxs).1]
            have htake : SEP <+: x :: before' :=
              List.prefix_of_prefix_length_le hpre ⟨tail, rfl⟩ (by simp [SEP]; omega)
            exact htake.trans ⟨after', rfl⟩
          rw [List.cons_append, blankLine, if_neg hno, ih hxs List.suffix_rfl hfour]
          rfl
        · exact ih hxs hr hlen

theorem markAt_ne {x : UInt8} (h : x ≠ 13) : markAt b (x :: s) = none := by
  apply if_neg
  rintro ⟨t, ht⟩
  cases ht
  exact h rfl

/-- No delimiter begins in a text without a line break. -/
theorem cutAt_plain (h : (13 : UInt8) ∉ s) (t : Bytes) : cutAt b (s ++ t) = (s ++ (cutAt b t).1, (cutAt b t).2) := by
  induction s with
  | nil => rfl
  | cons x xs ih =>
      rw [List.mem_cons, not_or] at h
      rw [List.cons_append, cutAt, markAt_ne (Ne.symm h.1), ih h.2]
      rfl

theorem markAfter_suffix (h : markAfter s = some (m, rest)) : rest <:+ s := by
  rw [markAfter] at h
  split at h
  · cases h
    exact List.drop_suffix ..
  · split at h
    · cases h
      exact List.dropWhile_suffix ..
    · cases h

theorem markAt_suffix (h : markAt b s = some (m, rest)) : rest <:+ s ∧ rest.length + 4 ≤ s.length := by
  rw [markAt] at h
  split at h
  · rename_i hpre
    have hrest := markAfter_suffix h
    refine ⟨hrest.trans (List.drop_suffix ..), ?_⟩
    have hle := hrest.length_le
    have hdelim := hpre.length_le
    rw [List.length_drop] at hle
    simp only [delim, List.length_cons] at hle hdelim
    omega
  · cases h

theorem cutAt_suffix (h : (cutAt b s).2 = some (m, rest)) : rest <:+ s ∧ rest.length + 4 ≤ s.length := by
  induction s with
  | nil => cases h
  | cons x xs ih =>
      rw [cutAt] at h
      cases hm : markAt b (x :: xs) with
      | some r =>
          rw [hm] at h
          cases h
          exact markAt_suffix hm
      | none =>
          rw [hm] at h
          obtain ⟨hsuf, hlt⟩ := ih h
          exact ⟨hsuf.trans (List.suffix_cons ..), Nat.le_succ_of_le hlt⟩

/-! ## A text that ends in a blank line -/

/-- The end of a blank line, or a text that ends in one. -/
def Ends (s : Bytes) : Prop := s <:+ SEP ∨ SEP <:+ s

theorem Ends.tail {x : UInt8} {xs : Bytes} (h : Ends (x :: xs)) : Ends xs := by
  rcases h with h | h
  · exact .inl ((List.suffix_cons ..).trans h)
  · rcases List.suffix_cons_iff.mp h with he | h
    · left
      rw [he]
      exact List.suffix_cons ..
    · exact .inr h

/-- The boundary ends before the blank line begins. -/
theorem Ends.drop_delim (hend : SEP <:+ delim b ++ s) : SEP <:+ s := by
  rcases List.suffix_or_suffix_of_suffix hend (List.suffix_append (delim b) s) with h | h
  · exact h
  · obtain ⟨v, hv⟩ := h
    obtain ⟨u, hu⟩ := hend
    -- what of the blank line stands in the delimiter has a break in it
    have hdelim : delim b = u ++ v := by
      rw [← hv, ← List.append_assoc] at hu
      exact (List.append_cancel_right hu).symm
    cases v with
    | nil =>
        rw [List.nil_append] at hv
        exact hv ▸ List.suffix_rfl
    | cons x v =>
        obtain rfl : x = 13 := (List.cons.inj hv).1
        cases u with
        | nil =>
            exfalso
            rw [delim, List.nil_append] at hdelim
            have hlt : (13 :: v).length ≤ SEP.length := hv ▸ by simp
            rw [← hdelim] at hv
            simp [SEP] at hv
        | cons y u =>
            exfalso
            rw [delim, List.cons_append] at hdelim
            have hmem : (13 : UInt8) ∈ 10 :: 45 :: 45 :: b.chars := by
              rw [(List.cons.inj hdelim).2]
              simp
            rcases List.mem_cons.mp hmem with h | hmem
            · cases h
            rcases List.mem_cons.mp hmem with h | hmem
            · cases h
            rcases List.mem_cons.mp hmem with h | hmem
            · cases h
            · exact b.plain hmem

theorem markAfter_append (hend : SEP <:+ s) (tail : Bytes) :
    markAfter (s ++ tail) = (markAfter s).map (fun r => (r.1, r.2 ++ tail)) ∧
    ∀ rest, markAfter s = some (.opens, rest) → SEP <:+ rest := by
  have hfour : 4 ≤ s.length := hend.length_le
  have hdash : [45, 45] <+: s ++ tail ↔ [45, 45] <+: s :=
    ⟨fun h => List.prefix_of_prefix_length_le h (List.prefix_append ..) (by simp; omega),
      fun h => h.trans (List.prefix_append ..)⟩
  have hdrop : SEP <:+ s.dropWhile isBlank := by
    obtain ⟨u, rfl⟩ := hend
    rw [List.dropWhile_append]
    split
    · exact List.suffix_rfl
    · exact List.suffix_append ..
  have hne : (s.dropWhile isBlank).isEmpty = false := by
    cases hd : s.dropWhile isBlank with
    | nil =>
        rw [hd] at hdrop
        cases List.suffix_nil.mp hdrop
    | cons => rfl
  have hblank : (s ++ tail).dropWhile isBlank = s.dropWhile isBlank ++ tail := by
    rw [List.dropWhile_append, hne]
    rfl
  have hbreak : CRLF <+: s.dropWhile isBlank ++ tail ↔ CRLF <+: s.dropWhile isBlank :=
    ⟨fun h => List.prefix_of_prefix_length_le h (List.prefix_append ..) (Nat.le_trans (by decide) hdrop.length_le),
      fun h => h.trans (List.prefix_append ..)⟩
  rw [markAfter, markAfter, hblank]
  by_cases h : [45, 45] <+: s
  · rw [if_pos (hdash.mpr h), if_pos h, List.drop_append_of_le_length (by omega)]
    exact ⟨rfl, fun _ h => by cases h⟩
  · rw [if_neg (fun h' => h (hdash.mp h')), if_neg h]
    by_cases h' : CRLF <+: s.dropWhile isBlank
    · rw [if_pos (hbreak.mpr h'), if_pos h']
      refine ⟨rfl, ?_⟩
      rintro rest ⟨⟩
      exact hdrop
    · rw [if_neg (fun hb => h' (hbreak.mp hb)), if_neg h']
      exact ⟨rfl, fun _ h => by cases h⟩

/-- After a blank line something that is no hyphen follows: no delimiter runs over its end. -/
theorem markAt_append (hend : Ends s) (hs : s ≠ []) {y : UInt8} (hy : y ≠ 45) (ys : Bytes) :
    markAt b (s ++ y :: ys) = (markAt b s).map (fun r => (r.1, r.2 ++ y :: ys)) ∧
    ∀ rest, markAt b s = some (.opens, rest) → SEP <:+ rest := by
  by_cases hlong : SEP <:+ s
  · have hiff : delim b <+: s ++ y :: ys ↔ delim b <+: s := by
      refine ⟨?_, fun h => h.trans (List.prefix_append ..)⟩
      intro h
      rcases List.prefix_or_prefix_of_prefix h (List.prefix_append s (y :: ys)) with h | h
      · exact h
      · -- two breaks in the blank line, one in the delimiter
        exfalso
        have htwo : 2 ≤ s.count 13 := hlong.sublist.count_le 13
        have hone : (delim b).count 13 = 1 := by
          rw [delim]
          simp [List.count_eq_zero.mpr b.plain]
        have hle := h.sublist.count_le 13
        omega
    rw [markAt, markAt]
    by_cases h : delim b <+: s
    · rw [if_pos (hiff.mpr h), if_pos h, List.drop_append_of_le_length h.length_le]
      obtain ⟨r, rfl⟩ := h
      rw [List.drop_left]
      exact markAfter_append (Ends.drop_delim hlong) _
    · rw [if_neg (fun h' => h (hiff.mp h')), if_neg h]
      exact ⟨rfl, fun _ h => by cases h⟩
  · -- a piece of the blank line itself
    have hnone : ∀ t : Bytes, (∀ x xs, t = x :: xs → x ≠ 45) → markAt b (s ++ t) = none := by
      intro t ht
      apply if_neg
      intro hpre
      obtain ⟨u, hu⟩ := hpre
      rw [delim, List.cons_append, List.cons_append, List.cons_append] at hu
      have hcases : s = [10] ∨ s = [13, 10] ∨ s = [10, 13, 10] := by
        have hsuf := hend.resolve_right hlong
        simp only [SEP, List.suffix_cons_iff, List.suffix_nil] at hsuf
        rcases hsuf with h | h | h | h | h
        · exact absurd (h ▸ List.suffix_rfl) hlong
        · exact .inr (.inr h)
        · exact .inr (.inl h)
        · exact .inl h
        · exact absurd h hs
      rcases hcases with rfl | rfl | rfl
      · cases hu
      · simp only [List.cons_append, List.nil_append, List.cons.injEq, true_and] at hu
        exact ht _ _ hu.symm rfl
      · cases hu
    have hself := hnone [] (by simp)
    rw [List.append_nil] at hself
    rw [hself]
    refine ⟨hnone _ ?_, fun _ h => by cases h⟩
    rintro x xs ⟨⟩
    exact hy

theorem cutAt_append (hend : Ends s) {y : UInt8} (hy : y ≠ 45) (ys : Bytes) :
    (cutAt b (s ++ y :: ys)).2 = (match (cutAt b s).2 with
      | some r => some (r.1, r.2 ++ y :: ys)
      | none => (cutAt b (y :: ys)).2) ∧
    ∀ rest, (cutAt b s).2 = some (.opens, rest) → SEP <:+ rest := by
  induction s with
  | nil => exact ⟨rfl, fun _ h => nomatch h⟩
  | cons x xs ih =>
      obtain ⟨hmark, hopens⟩ := markAt_append (b := b) hend (List.cons_ne_nil x xs) hy ys
      rw [List.cons_append] at hmark ⊢
      rw [cutAt, cutAt, hmark]
      cases hm : markAt b (x :: xs) with
      | some r =>
          rw [hm] at hopens
          exact ⟨rfl, hopens⟩
      | none => exact ih hend.tail

/-- Enough fuel is enough. -/
theorem contents_fuel (n : Nat) (h : s.length ≤ n) : contents b n s = contents b s.length s := by
  have hboth : ∀ (k n m : Nat) (s : Bytes), s.length ≤ k → s.length ≤ n → s.length ≤ m → contents b n s = contents b m s := by
    intro k
    induction k with
    | zero =>
        intro n m s hk _ _
        obtain rfl := List.length_eq_zero_iff.mp (Nat.le_zero.mp hk)
        cases n <;> cases m <;> rfl
    | succ k ih =>
        intro n m s hk hn hm
        cases hs : blankLine s with
        | none => cases n <;> cases m <;> simp [contents, hs]
        | some r =>
            obtain ⟨before, after⟩ := r
            obtain ⟨hsplit, hend⟩ := blankLine_some hs
            have hlen : before.length + after.length = s.length := by
              rw [hsplit, List.length_append]
            have hfour : 4 ≤ before.length := hend.length_le
            obtain ⟨n, rfl⟩ : ∃ n', n = n' + 1 := ⟨n - 1, by omega⟩
            obtain ⟨m, rfl⟩ : ∃ m', m = m' + 1 := ⟨m - 1, by omega⟩
            rw [contents, contents, hs]
            dsimp only
            congr 1
            cases hc : (cutAt b (CRLF ++ after)).2 with
            | none => rfl
            | some r =>
                obtain ⟨mark, rest⟩ := r
                cases mark with
                | closes => rfl
                | opens =>
                    have hlt := (cutAt_suffix hc).2
                    rw [List.length_append, CRLF] at hlt
                    simp only [List.length_cons, List.length_nil] at hlt
                    exact ih n m rest (by omega) (by omega) (by omega)
  exact hboth s.length n s.length s (Nat.le_refl _) h (Nat.le_refl _)

end

end EncedoChat.Multipart
