import EncedoChat.Fput.Prefix

/-!
# The insertion and where the body is cut

`insertAfterPartHeaders` of `prefix.mjs` with any header: what comes out of the stream, and how it ends.
-/

namespace EncedoChat.Fput

open Multipart

inductive Failure where
  | tooLong
  | neverEnded
  deriving DecidableEq

/-- `transform` -/
def push (header : Bytes) (x : Insert) (chunk : Bytes) : Except Failure (Insert × Bytes) :=
  if x.done then .ok (x, chunk)
  else
    match blankLine (x.head ++ chunk) with
    | none => if MAX_HEAD < (x.head ++ chunk).length then .error .tooLong else .ok (⟨x.head ++ chunk, false⟩, [])
    | some (before, after) => .ok (⟨[], true⟩, before ++ header ++ after)

def flush (x : Insert) : Option Failure := if x.done then none else some .neverEnded

/-- All that is emitted, and what broke the stream. -/
def stream (header : Bytes) : Insert → List Bytes → Bytes × Option Failure
  | x, [] => ([], flush x)
  | x, c :: cs =>
    match push header x c with
    | .error e => ([], some e)
    | .ok (x', out) => (out ++ (stream header x' cs).1, (stream header x' cs).2)

def insertAfterPartHeaders (header : Bytes) (chunks : List Bytes) : Bytes × Option Failure :=
  stream header ⟨[], false⟩ chunks

/-- Both fail, or both give the same bytes. -/
def Agree (r s : Bytes × Option Failure) : Prop :=
  r.2 ≠ none ∧ s.2 ≠ none ∨ r.2 = none ∧ s.2 = none ∧ r.1 = s.1

/-- The header, where it belongs in a body. -/
def Placed (header body out : Bytes) : Prop :=
  ∃ before after, blankLine body = some (before, after) ∧ out = before ++ header ++ after

/-- The insertion is a function of the body. -/
structure Uniform (header body : Bytes) : Prop where
  same : ∀ cs cs', cs.flatten = body → cs'.flatten = body →
    Agree (insertAfterPartHeaders header cs) (insertAfterPartHeaders header cs')
  placed : ∀ cs, cs.flatten = body → (insertAfterPartHeaders header cs).2 = none →
    Placed header body (insertAfterPartHeaders header cs).1
  held : ∀ cs pre, cs.flatten = body → pre <+: cs → (insertAfterPartHeaders header pre).1 ≠ [] →
    Placed header pre.flatten (insertAfterPartHeaders header pre).1

/-- The first blank line ends before a piece without it could be too long. -/
def Early (body : Bytes) : Prop := ∀ before after, blankLine body = some (before, after) → before.length ≤ MAX_HEAD + 1

variable {header body head : Bytes} {cs : List Bytes}

/-! ## One run -/

theorem stream_done (cs : List Bytes) : stream header ⟨[], true⟩ cs = (cs.flatten, none) := by
  induction cs with
  | nil => rfl
  | cons c cs ih => simp [stream, push, ih]

theorem push_waiting {c : Bytes} (h : blankLine (head ++ c) = none) (hlen : (head ++ c).length ≤ MAX_HEAD) :
    push header ⟨head, false⟩ c = .ok (⟨head ++ c, false⟩, []) := by
  simp only [push, h, Bool.false_eq_true, if_false]
  exact if_neg (Nat.not_lt.mpr hlen)

theorem push_long {c : Bytes} (h : blankLine (head ++ c) = none) (hlen : MAX_HEAD < (head ++ c).length) :
    push header ⟨head, false⟩ c = .error .tooLong := by
  simp only [push, h, Bool.false_eq_true, if_false]
  exact if_pos hlen

theorem stream_placed {c before after : Bytes} (h : blankLine (head ++ c) = some (before, after)) :
    stream header ⟨head, false⟩ (c :: cs) = (before ++ header ++ (after ++ cs.flatten), none) := by
  simp only [stream, push, h, Bool.false_eq_true, if_false, stream_done]
  rw [List.append_assoc _ after]

theorem stream_waiting {c : Bytes} (h : blankLine (head ++ c) = none) (hlen : (head ++ c).length ≤ MAX_HEAD) :
    stream header ⟨head, false⟩ (c :: cs) = stream header ⟨head ++ c, false⟩ cs := by
  rw [stream, push_waiting h hlen]
  simp

/-- What comes out, as long as no piece is too long: the body with the header, or nothing. -/
theorem stream_short (hnone : blankLine head = none)
    (h : ∀ pre, pre <+: cs → blankLine (head ++ pre.flatten) = none → pre ≠ [] →
      (head ++ pre.flatten).length ≤ MAX_HEAD) :
    blankLine (head ++ cs.flatten) = none ∧ stream header ⟨head, false⟩ cs = ([], some .neverEnded) ∨
      Placed header (head ++ cs.flatten) (stream header ⟨head, false⟩ cs).1 ∧ (stream header ⟨head, false⟩ cs).2 = none := by
  induction cs generalizing head with
  | nil =>
      left
      simp [hnone, stream, flush]
  | cons c cs ih =>
      have hflat : head ++ (c :: cs).flatten = head ++ c ++ cs.flatten := by simp
      cases hb : blankLine (head ++ c) with
      | some r =>
          obtain ⟨before, after⟩ := r
          right
          rw [stream_placed hb, hflat]
          exact ⟨⟨before, _, blankLine_append hb _, rfl⟩, rfl⟩
      | none =>
          have hlen := h [c] ⟨cs, rfl⟩ (by simpa using hb) (by simp)
          rw [List.flatten_singleton] at hlen
          rw [stream_waiting hb hlen, hflat]
          apply ih hb
          intro pre hpre hnone' _
          have hcons := h (c :: pre) (List.cons_prefix_cons.mpr ⟨rfl, hpre⟩) (by simpa using hnone') (by simp)
          simpa using hcons

/-- A piece that is too long breaks the stream with nothing sent. -/
theorem stream_long (h : ∃ pre, pre <+: cs ∧ blankLine (head ++ pre.flatten) = none ∧ pre ≠ [] ∧
      MAX_HEAD < (head ++ pre.flatten).length) : stream header ⟨head, false⟩ cs = ([], some .tooLong) := by
  induction cs generalizing head with
  | nil =>
      obtain ⟨pre, hpre, -, hne, -⟩ := h
      exact absurd (List.prefix_nil.mp hpre) hne
  | cons c cs ih =>
      obtain ⟨pre, hpre, hnone, hne, hlong⟩ := h
      cases pre with
      | nil => exact absurd rfl hne
      | cons c' pre =>
          obtain ⟨rfl, htail⟩ := List.cons_prefix_cons.mp hpre
          rw [List.flatten_cons] at hnone hlong
          have hb : blankLine (head ++ c') = none := by
            cases hb : blankLine (head ++ c') with
            | none => rfl
            | some r =>
                rw [← List.append_assoc, blankLine_append hb] at hnone
                cases hnone
          by_cases hlen : MAX_HEAD < (head ++ c').length
          · rw [stream, push_long hb hlen]
          · rw [stream_waiting hb (Nat.not_lt.mp hlen)]
            apply ih
            rw [← List.append_assoc] at hnone hlong
            refine ⟨pre, htail, hnone, ?_, hlong⟩
            rintro rfl
            rw [List.flatten_nil, List.append_nil] at hlong
            exact hlen hlong

theorem insert_short (header : Bytes) (h : ¬TooLong cs) :
    blankLine cs.flatten = none ∧ insertAfterPartHeaders header cs = ([], some .neverEnded) ∨
      Placed header cs.flatten (insertAfterPartHeaders header cs).1 ∧ (insertAfterPartHeaders header cs).2 = none := by
  have hnil : blankLine [] = none := rfl
  apply stream_short hnil
  intro pre hpre hnone _
  by_contra hlong
  exact h ⟨pre, hpre, hnone, Nat.not_le.mp hlong⟩

theorem insert_long (h : TooLong cs) : insertAfterPartHeaders header cs = ([], some .tooLong) := by
  obtain ⟨pre, hpre, hnone, hlong⟩ := h
  refine stream_long ⟨pre, hpre, hnone, ?_, hlong⟩
  rintro rfl
  cases hlong

/-- Nothing is sent before the header. -/
theorem insert_sent (h : (insertAfterPartHeaders header cs).1 ≠ []) :
    Placed header cs.flatten (insertAfterPartHeaders header cs).1 := by
  by_cases hlong : TooLong cs
  · simp [insert_long hlong] at h
  · rcases insert_short header hlong with ⟨-, he⟩ | ⟨hp, -⟩
    · simp [he] at h
    · exact hp

/-- With its own header the stream gives what `forward` does. -/
theorem insert_eq_forward (cs : List Bytes) :
    forward cs = if (insertAfterPartHeaders HEADER cs).2 = none then some (insertAfterPartHeaders HEADER cs).1 else none := by
  by_cases hlong : TooLong cs
  · rw [insert_long hlong, if_neg (by simp), Option.eq_none_iff_forall_ne_some]
    intro out hout
    exact ((forward_some cs out).mp hout).1 hlong
  · rcases insert_short HEADER hlong with ⟨hnone, he⟩ | ⟨hp, hok⟩
    · rw [he, if_neg (by simp), Option.eq_none_iff_forall_ne_some]
      intro out hout
      obtain ⟨-, before, after, hb, -⟩ := (forward_some cs out).mp hout
      rw [hnone] at hb
      cases hb
    · rw [if_pos hok]
      exact (forward_some cs _).mpr ⟨hlong, hp⟩

/-! ## Every way to cut a body -/

/-- What has no blank line yet is shorter than what ends with it. -/
theorem blankLine_none_iff {pre before after : Bytes} (hb : blankLine body = some (before, after)) (hpre : pre <+: body) :
    blankLine pre = none ↔ pre.length < before.length := by
  obtain ⟨t, ht⟩ := hpre
  have hbody := (blankLine_some hb).1
  constructor
  · intro hnone
    by_contra hlen
    have hbefore : before <+: pre :=
      List.prefix_of_prefix_length_le ⟨after, hbody.symm⟩ ⟨t, ht⟩ (Nat.not_lt.mp hlen)
    obtain ⟨rest, rfl⟩ := hbefore
    rw [blankLine_suffix hb List.suffix_rfl (blankLine_some hb).2.length_le] at hnone
    cases hnone
  · intro hlen
    cases hp : blankLine pre with
    | none => rfl
    | some r =>
        obtain ⟨before', after'⟩ := r
        have hall := blankLine_append hp t
        rw [ht, hb, Option.some.injEq, Prod.mk.injEq] at hall
        have := congrArg List.length (blankLine_some hp).1
        rw [List.length_append, ← hall.1] at this
        omega

theorem isPrefix_flatten {pre : List Bytes} (h : pre <+: cs) : pre.flatten <+: cs.flatten := by
  obtain ⟨t, rfl⟩ := h
  rw [List.flatten_append]
  exact List.prefix_append _ _

/-- A blank line that comes early cannot be missed. -/
theorem Early.not_tooLong {before after : Bytes} (h : Early cs.flatten) (hb : blankLine cs.flatten = some (before, after)) :
    ¬TooLong cs := by
  rintro ⟨pre, hpre, hnone, hlong⟩
  have hlt := (blankLine_none_iff hb (isPrefix_flatten hpre)).mp hnone
  have := h before after hb
  omega

/-- Any piece of the body that is a way to cut it goes through. -/
theorem insert_placed (h : ¬TooLong cs) {before after : Bytes} (hb : blankLine cs.flatten = some (before, after)) :
    insertAfterPartHeaders header cs = (before ++ header ++ after, none) := by
  rcases insert_short header h with ⟨hnone, -⟩ | ⟨⟨before', after', hb', hout⟩, hok⟩
  · rw [hnone] at hb
    cases hb
  · rw [hb, Option.some.injEq, Prod.mk.injEq] at hb'
    rw [← hb'.1, ← hb'.2] at hout
    exact Prod.ext hout hok

theorem insert_fails (hb : blankLine cs.flatten = none) : (insertAfterPartHeaders header cs).2 ≠ none := by
  by_cases hlong : TooLong cs
  · simp [insert_long hlong]
  · rcases insert_short header hlong with ⟨-, he⟩ | ⟨⟨_, _, hb', -⟩, -⟩
    · simp [he]
    · rw [hb] at hb'
      cases hb'

/-- A body in one piece is never too long when it has its blank line. -/
theorem not_tooLong_whole {before after : Bytes} (hb : blankLine body = some (before, after)) : ¬TooLong [body] := by
  rintro ⟨pre, hpre, hnone, hlong⟩
  rcases List.prefix_cons_iff.mp hpre with rfl | ⟨t, rfl, ht⟩
  · cases hlong
  · rw [List.prefix_nil.mp ht, List.flatten_singleton, hb] at hnone
    cases hnone

/-- Cut one byte after the limit. -/
theorem tooLong_cut {before after : Bytes} (hb : blankLine body = some (before, after)) (hlen : MAX_HEAD + 1 < before.length) :
    TooLong [body.take (MAX_HEAD + 1), body.drop (MAX_HEAD + 1)] := by
  have hle : MAX_HEAD + 1 ≤ body.length := by
    rw [(blankLine_some hb).1, List.length_append]
    omega
  refine ⟨[body.take (MAX_HEAD + 1)], by simp, ?_, ?_⟩
  · rw [List.flatten_singleton, blankLine_none_iff hb (List.take_prefix _ _), List.length_take]
    omega
  · rw [List.flatten_singleton, List.length_take]
    omega

/-- A late blank line passes in one piece and not in two. -/
theorem Uniform.early (h : Uniform header body) : Early body := by
  intro before after hb
  by_contra hlen
  have hsame := h.same [body] [body.take (MAX_HEAD + 1), body.drop (MAX_HEAD + 1)] (by simp) (by simp)
  rw [insert_long (tooLong_cut hb (Nat.not_le.mp hlen)),
    insert_placed (not_tooLong_whole hb) (by rwa [List.flatten_singleton])] at hsame
  rcases hsame with ⟨hne, -⟩ | ⟨-, he, -⟩
  · exact hne rfl
  · cases he

/-- The cuts do not matter for a body whose blank line comes early, or not at all, and for no other. -/
theorem uniform_iff (header body : Bytes) : Uniform header body ↔ Early body := by
  constructor
  · exact Uniform.early
  · intro h
    constructor
    · rintro cs cs' rfl hcs'
      cases hb : blankLine cs.flatten with
      | none => exact .inl ⟨insert_fails hb, insert_fails (hcs' ▸ hb)⟩
      | some r =>
          obtain ⟨before, after⟩ := r
          have hb' : blankLine cs'.flatten = some (before, after) := hcs' ▸ hb
          have h' : Early cs'.flatten := hcs' ▸ h
          rw [insert_placed (h.not_tooLong hb) hb, insert_placed (h'.not_tooLong hb') hb']
          exact .inr ⟨rfl, rfl, rfl⟩
    · rintro cs rfl hok
      by_cases hlong : TooLong cs
      · simp [insert_long hlong] at hok
      · rcases insert_short header hlong with ⟨-, he⟩ | ⟨hp, -⟩
        · simp [he] at hok
        · exact hp
    · rintro cs pre - - hsent
      exact insert_sent hsent

theorem blankLine_plain (n : Nat) :
    blankLine (List.replicate n 0x41 ++ SEP) = some (List.replicate n 0x41 ++ SEP, []) := by
  induction n with
  | zero => rfl
  | succ n ih =>
      rw [List.replicate_succ, List.cons_append, blankLine, ih, if_neg]
      · rfl
      · simp [SEP]

/-- Headers of 8192 bytes and the blank line. -/
theorem uniform_not_all : ¬∀ header body, Uniform header body := by
  intro h
  have hlen := (h [] _).early _ _ (blankLine_plain MAX_HEAD)
  simp [SEP] at hlen

end EncedoChat.Fput
