import EncedoChat.Lib.Multipart

/-!
# Eight bytes between an upload and the store

`insertAfterPartHeaders` of `prefix.mjs`, over the pieces a body comes in, and what the store reads of what goes on.
-/

namespace EncedoChat.Fput

open Multipart

def MAX_HEAD : Nat := 8 * 1024

/-- `MAGIC` and `VERSION`, padded to `HEADER_LEN` -/
def HEADER : Bytes := [0x45, 0x43, 0x46, 0x31, 1, 0, 0, 0]

structure Insert where
  head : Bytes
  done : Bool

/-- One piece; `none` is an error. -/
def Insert.transform (x : Insert) (chunk : Bytes) : Option (Insert × Bytes) :=
  if x.done then some (x, chunk)
  else
    match blankLine (x.head ++ chunk) with
    | none => if MAX_HEAD < (x.head ++ chunk).length then none else some (⟨x.head ++ chunk, false⟩, [])
    | some (before, after) => some (⟨[], true⟩, before ++ HEADER ++ after)

/-- The pieces and the end of the stream. -/
def Insert.run : Insert → List Bytes → Option Bytes
  | x, [] => if x.done then some [] else none
  | x, c :: cs => do
    let r ← x.transform c
    return r.2 ++ (← r.1.run cs)

/-- What is forwarded of an upload; `none` is a refusal. -/
def forward (chunks : List Bytes) : Option Bytes := Insert.run ⟨[], false⟩ chunks

/-- The pieces come to more than `MAX_HEAD` before a blank line does. -/
def TooLong (chunks : List Bytes) : Prop :=
  ∃ pre, pre <+: chunks ∧ blankLine pre.flatten = none ∧ MAX_HEAD < pre.flatten.length

/-! ## However the body is cut -/

theorem run_done (cs : List Bytes) : Insert.run ⟨[], true⟩ cs = some cs.flatten := by
  induction cs with
  | nil => rfl
  | cons c cs ih => simp [Insert.run, Insert.transform, ih]

/-- A blank line stays where it is when more comes. -/
theorem blankLine_append {s before after : Bytes} (h : blankLine s = some (before, after)) (t : Bytes) :
    blankLine (s ++ t) = some (before, after ++ t) := by
  have hend := (blankLine_some h).2.length_le
  rw [(blankLine_some h).1, List.append_assoc]
  exact blankLine_suffix h List.suffix_rfl hend (after ++ t)

theorem run_head (cs : List Bytes) {head : Bytes} (hnone : blankLine head = none) (out : Bytes) :
    Insert.run ⟨head, false⟩ cs = some out ↔
      (∃ before after, blankLine (head ++ cs.flatten) = some (before, after) ∧ out = before ++ HEADER ++ after) ∧
      ∀ pre, pre <+: cs → pre ≠ [] → blankLine (head ++ pre.flatten) = none → (head ++ pre.flatten).length ≤ MAX_HEAD := by
  induction cs generalizing head with
  | nil =>
      constructor
      · intro h
        cases h
      · rintro ⟨⟨before, after, hb, -⟩, -⟩
        rw [List.flatten_nil, List.append_nil, hnone] at hb
        cases hb
  | cons c cs ih =>
      have hflat : head ++ (c :: cs).flatten = head ++ c ++ cs.flatten := by simp
      simp only [Insert.run, Insert.transform, Bool.false_eq_true, if_false]
      cases hb : blankLine (head ++ c) with
      | some r =>
          obtain ⟨before, after⟩ := r
          have hall := blankLine_append hb cs.flatten
          simp only [Option.bind_eq_bind, Option.bind_some, run_done, Option.pure_def, Option.some.injEq]
          constructor
          · rintro rfl
            refine ⟨⟨before, after ++ cs.flatten, hflat ▸ hall, by simp⟩, ?_⟩
            intro pre hpre hne hnone'
            cases pre with
            | nil => exact absurd rfl hne
            | cons c' pre =>
                obtain ⟨rfl, -⟩ := List.cons_prefix_cons.mp hpre
                have hsome := blankLine_append hb pre.flatten
                rw [List.flatten_cons, ← List.append_assoc, hsome] at hnone'
                cases hnone'
          · rintro ⟨⟨before', after', hb', rfl⟩, -⟩
            rw [hflat, hall] at hb'
            cases hb'
            simp
      | none =>
          by_cases hlong : MAX_HEAD < (head ++ c).length
          · dsimp only
            rw [if_pos hlong]
            constructor
            · intro h
              cases h
            · rintro ⟨-, hshort⟩
              have hle := hshort [c] ⟨cs, rfl⟩ (by simp) (by simpa using hb)
              rw [List.flatten_singleton] at hle
              omega
          · dsimp only
            rw [if_neg hlong]
            simp only [Option.bind_eq_bind, Option.bind_some, List.nil_append, Option.pure_def, Option.bind_fun_some]
            rw [ih hb, hflat]
            apply and_congr_right
            rintro -
            constructor
            · intro h pre hpre hne hnone'
              cases pre with
              | nil => exact absurd rfl hne
              | cons c' pre =>
                  obtain ⟨rfl, htail⟩ := List.cons_prefix_cons.mp hpre
                  rw [List.flatten_cons, ← List.append_assoc] at hnone' ⊢
                  by_cases hp : pre = []
                  · subst hp
                    rw [List.flatten_nil, List.append_nil]
                    omega
                  · exact h pre htail hp hnone'
            · intro h pre hpre hne hnone'
              have hcons := h (c :: pre) (List.cons_prefix_cons.mpr ⟨rfl, hpre⟩) (by simp)
              rw [List.flatten_cons, ← List.append_assoc] at hcons
              exact hcons hnone'

/-- The header goes in after the first blank line, wherever the pieces are cut. -/
theorem forward_some (chunks : List Bytes) (out : Bytes) :
    forward chunks = some out ↔ ¬TooLong chunks ∧
      ∃ before after, blankLine chunks.flatten = some (before, after) ∧ out = before ++ HEADER ++ after := by
  have hnil : blankLine [] = none := rfl
  rw [forward, run_head chunks hnil out, and_comm]
  simp only [List.nil_append]
  apply and_congr_left
  rintro -
  constructor
  · rintro h ⟨pre, hpre, hnone, hlong⟩
    have hne : pre ≠ [] := by
      rintro rfl
      cases hlong
    have hle := h pre hpre hne hnone
    omega
  · intro h pre hpre _ hnone
    by_contra hlong
    exact h ⟨pre, hpre, hnone, by omega⟩

end EncedoChat.Fput

/-!
# What the store saves

The header stands before the first part, if the first blank line is that part's own; any other part is what came in.
-/

namespace EncedoChat.Fput

open Multipart

variable {b : Boundary} {before after body : Bytes}

theorem plain_header : (13 : UInt8) ∉ HEADER := by decide

/-- The content of a part that begins with the header. -/
theorem cutAt_header (b : Boundary) (after : Bytes) :
    cutAt b (CRLF ++ (HEADER ++ after)) = (CRLF ++ (HEADER ++ (cutAt b after).1), (cutAt b after).2) := by
  have hbreak : markAt b (CRLF ++ (HEADER ++ after)) = none := by
    apply if_neg
    rintro ⟨t, ht⟩
    cases ht
  have hline : markAt b (10 :: (HEADER ++ after)) = none := markAt_ne (by decide)
  rw [CRLF, List.cons_append, List.cons_append, List.nil_append, cutAt, cutAt, hline]
  rw [CRLF, List.cons_append, List.cons_append, List.nil_append] at hbreak
  rw [hbreak, cutAt_plain plain_header]
  rfl

/-- The parts of what is forwarded. -/
theorem parts_forwarded (hb : blankLine body = some (before, after)) :
    parts b (before ++ HEADER ++ after) = match (cutAt b (CRLF ++ before)).2 with
      | some (.opens, _) => (HEADER ++ (cutAt b after).1) :: partsFrom b (cutAt b after).2
      | some (.closes, _) => []
      | none => partsFrom b (cutAt b after).2 := by
  have hsep := (blankLine_some hb).2
  have hends : Ends (CRLF ++ before) := .inr (hsep.trans (List.suffix_append ..))
  obtain ⟨hcut, hopens⟩ := cutAt_append (b := b) hends (y := 0x45) (by decide) (HEADER.tail ++ after)
  have htail : (0x45 : UInt8) :: (HEADER.tail ++ after) = HEADER ++ after := rfl
  rw [htail] at hcut
  rw [parts, List.append_assoc, ← List.append_assoc CRLF, hcut]
  cases hc : (cutAt b (CRLF ++ before)).2 with
  | none =>
      dsimp only
      rw [cutAt_plain plain_header]
  | some r =>
      obtain ⟨mark, r⟩ := r
      cases mark with
      | closes => rfl
      | opens =>
          obtain ⟨hsuf, hlen⟩ := cutAt_suffix hc
          have hr : r <:+ before := by
            apply List.suffix_of_suffix_length_le hsuf (List.suffix_append ..)
            rw [List.length_append] at hlen
            simp only [CRLF, List.length_cons, List.length_nil] at hlen
            omega
          have hfour : 4 ≤ r.length := (hopens r hc).length_le
          have hblank := blankLine_suffix hb hr hfour (HEADER ++ after)
          obtain ⟨n, hn⟩ : ∃ n, (r ++ (HEADER ++ after)).length = n + 1 :=
            ⟨_, (Nat.succ_pred_eq_of_pos (by rw [List.length_append]; omega)).symm⟩
          dsimp only
          rw [partsFrom, hn, contents, hblank]
          dsimp only
          rw [cutAt_header]
          congr 1
          cases hrest : (cutAt b after).2 with
          | none => rfl
          | some m =>
              obtain ⟨mark, rest⟩ := m
              cases mark with
              | closes => rfl
              | opens =>
                  have hlt := (cutAt_suffix hrest).2
                  simp only [List.length_append] at hn
                  exact contents_fuel n (by omega)

/-- What follows the first blank line of a body holds no part of its own that lacks the header. -/
def NothingBehind (b : Boundary) (body : Bytes) : Prop :=
  ∀ before after, blankLine body = some (before, after) →
    (∃ rest, (cutAt b (CRLF ++ before)).2 = some (.closes, rest)) ∨
    ∀ c ∈ partsFrom b (cutAt b after).2, HEADER <+: c

/-- Every part the store saves of an upload begins with the header, if and only if the upload is refused or nothing
stands behind its first blank line. -/
theorem stored_prefixed (b : Boundary) (chunks : List Bytes) :
    (∀ out, forward chunks = some out → ∀ c ∈ parts b out, HEADER <+: c) ↔
      TooLong chunks ∨ NothingBehind b chunks.flatten := by
  have hall : ∀ before after, blankLine chunks.flatten = some (before, after) →
      ((∀ c ∈ parts b (before ++ HEADER ++ after), HEADER <+: c) ↔
        (∃ rest, (cutAt b (CRLF ++ before)).2 = some (.closes, rest)) ∨
        ∀ c ∈ partsFrom b (cutAt b after).2, HEADER <+: c) := by
    intro before after hb
    rw [parts_forwarded hb]
    cases hc : (cutAt b (CRLF ++ before)).2 with
    | none => simp
    | some r =>
        obtain ⟨mark, r⟩ := r
        cases mark with
        | closes => simp
        | opens => simp
  constructor
  · intro h
    by_cases hlong : TooLong chunks
    · exact .inl hlong
    · right
      intro before after hb
      exact (hall before after hb).mp (h _ ((forward_some chunks _).mpr ⟨hlong, before, after, hb, rfl⟩))
  · rintro h out hout
    obtain ⟨hlong, before, after, hb, rfl⟩ := (forward_some chunks out).mp hout
    exact (hall before after hb).mpr (h.resolve_left hlong before after hb)

/-- Two parts with the boundary `B` and no headers: the second is saved as it came in. -/
theorem second_unprefixed :
    ¬ ∀ (b : Boundary) (chunks : List Bytes) out, forward chunks = some out → ∀ c ∈ parts b out, HEADER <+: c := by
  intro h
  have hout := h ⟨[66], by decide⟩ [[45, 45, 66, 13, 10, 13, 10, 120, 13, 10, 45, 45, 66, 13, 10, 13, 10, 60, 13, 10, 45,
    45, 66, 45, 45]] _ rfl [60]
  exact absurd (hout (by decide)) (by decide)

end EncedoChat.Fput
