import EncedoChat.Lib.Bytes

/-!
# UTF-8

`TextEncoder` and `TextDecoder`. The decoder takes a byte at a time and is not fatal: what is no part of a character
is replaced, and a byte that breaks a character off is looked at again. A byte-order mark at the start is dropped.
-/

namespace EncedoChat.Utf8

/-- `new TextEncoder().encode(s)` -/
def encode (cs : List Char) : Bytes := cs.flatMap String.utf8EncodeChar

/-- What is read of a character: its bits, the bytes it still needs, and what the next of them may be. -/
structure State where
  point : Nat
  needed : Nat
  lower : Nat
  upper : Nat

def start : State := ⟨0, 0, 0x80, 0xBF⟩

/-- U+FFFD -/
def replacement : Char := Char.ofNat 0xFFFD

/-- U+FEFF -/
def mark : Char := Char.ofNat 0xFEFF

/-- A byte between characters. -/
def first (n : Nat) : State × List Char :=
  if n < 0x80 then (start, [Char.ofNat n])
  else if 0xC2 ≤ n ∧ n ≤ 0xDF then (⟨n % 0x20, 1, 0x80, 0xBF⟩, [])
  else if 0xE0 ≤ n ∧ n ≤ 0xEF then
    (⟨n % 0x10, 2, if n = 0xE0 then 0xA0 else 0x80, if n = 0xED then 0x9F else 0xBF⟩, [])
  else if 0xF0 ≤ n ∧ n ≤ 0xF4 then
    (⟨n % 8, 3, if n = 0xF0 then 0x90 else 0x80, if n = 0xF4 then 0x8F else 0xBF⟩, [])
  else (start, [replacement])

def step (s : State) (n : Nat) : State × List Char :=
  if s.needed = 0 then first n
  else if s.lower ≤ n ∧ n ≤ s.upper then
    let point := s.point * 0x40 + n % 0x40
    if s.needed = 1 then (start, [Char.ofNat point]) else (⟨point, s.needed - 1, 0x80, 0xBF⟩, [])
  else
    let r := first n
    (r.1, replacement :: r.2)

def run (s : State) : Bytes → List Char
  | [] => if s.needed = 0 then [] else [replacement]
  | b :: bs =>
    let r := step s b.toNat
    r.2 ++ run r.1 bs

/-- `new TextDecoder().decode(bs)` -/
def decode (bs : Bytes) : List Char := run start (if [0xEF, 0xBB, 0xBF].isPrefixOf bs then bs.drop 3 else bs)

theorem encode_append (a b : List Char) : encode (a ++ b) = encode a ++ encode b := List.flatMap_append

@[simp] theorem encode_nil : encode [] = [] := rfl

/-! ## A character is read back -/

theorem run_cons (s : State) {n : Nat} (hn : n < 256) (bs : Bytes) :
    run s (UInt8.ofNat n :: bs) = (step s n).2 ++ run (step s n).1 bs := by
  rw [run, UInt8.toNat_ofNat_of_lt' hn]

@[simp] theorem step_start (n : Nat) : step start n = first n := rfl

theorem step_more {p k l u n : Nat} (hl : l ≤ n) (hu : n ≤ u) :
    step ⟨p, k + 2, l, u⟩ n = (⟨p * 0x40 + n % 0x40, k + 1, 0x80, 0xBF⟩, []) := by
  simp [step, hl, hu]

theorem step_last {p l u n : Nat} (hl : l ≤ n) (hu : n ≤ u) :
    step ⟨p, 1, l, u⟩ n = (start, [Char.ofNat (p * 0x40 + n % 0x40)]) := by
  simp [step, hl, hu]

theorem first_one {n : Nat} (h : n < 0x80) : first n = (start, [Char.ofNat n]) := by
  simp [first, h]

theorem first_two {n : Nat} (hl : 0xC2 ≤ n) (hu : n ≤ 0xDF) : first n = (⟨n % 0x20, 1, 0x80, 0xBF⟩, []) := by
  rw [first, if_neg (by omega), if_pos ⟨hl, hu⟩]

theorem first_three {n : Nat} (hl : 0xE0 ≤ n) (hu : n ≤ 0xEF) :
    first n = (⟨n % 0x10, 2, if n = 0xE0 then 0xA0 else 0x80, if n = 0xED then 0x9F else 0xBF⟩, []) := by
  rw [first, if_neg (by omega), if_neg (by omega), if_pos ⟨hl, hu⟩]

theorem first_four {n : Nat} (hl : 0xF0 ≤ n) (hu : n ≤ 0xF4) :
    first n = (⟨n % 8, 3, if n = 0xF0 then 0x90 else 0x80, if n = 0xF4 then 0x8F else 0xBF⟩, []) := by
  rw [first, if_neg (by omega), if_neg (by omega), if_neg (by omega), if_pos ⟨hl, hu⟩]

theorem run_utf8EncodeChar (c : Char) (bs : Bytes) : run start (String.utf8EncodeChar c ++ bs) = c :: run start bs := by
  have hself : Char.ofNat c.val.toNat = c := Char.ofNat_toNat c
  have hvalid : c.val.toNat < 0xD800 ∨ 0xDFFF < c.val.toNat ∧ c.val.toNat < 0x110000 := c.valid
  fun_cases String.utf8EncodeChar with
  | case1 v h =>
      rw [List.cons_append, run_cons _ (by omega), step_start, first_one (by omega), hself]
      rfl
  | case2 v h₁ h₂ =>
      have hp : (v / 64 % 0x20 + 0xc0) % 0x20 * 0x40 + (v % 0x40 + 0x80) % 0x40 = v := by omega
      rw [List.cons_append, run_cons _ (by omega), step_start, first_two (by omega) (by omega), List.cons_append,
        run_cons _ (by omega), step_last (by omega) (by omega), hp, hself]
      rfl
  | case3 v h₁ h₂ h₃ =>
      have hp : ((v / 4096 % 0x10 + 0xe0) % 0x10 * 0x40 + (v / 64 % 0x40 + 0x80) % 0x40) * 0x40 +
          (v % 0x40 + 0x80) % 0x40 = v := by omega
      rw [List.cons_append, run_cons _ (by omega), step_start, first_three (by omega) (by omega), List.cons_append,
        run_cons _ (by omega), step_more (by split <;> omega) (by split <;> omega), List.cons_append,
        run_cons _ (by omega), step_last (by omega) (by omega), hp, hself]
      rfl
  | case4 v h₁ h₂ h₃ =>
      have hp : (((v / 262144 % 8 + 0xf0) % 8 * 0x40 + (v / 4096 % 0x40 + 0x80) % 0x40) * 0x40 +
          (v / 64 % 0x40 + 0x80) % 0x40) * 0x40 + (v % 0x40 + 0x80) % 0x40 = v := by omega
      rw [List.cons_append, run_cons _ (by omega), step_start, first_four (by omega) (by omega), List.cons_append,
        run_cons _ (by omega), step_more (by split <;> omega) (by split <;> omega), List.cons_append,
        run_cons _ (by omega), step_more (by omega) (by omega), List.cons_append,
        run_cons _ (by omega), step_last (by omega) (by omega), hp, hself]
      rfl

theorem run_encode (cs : List Char) : run start (encode cs) = cs := by
  induction cs with
  | nil => rfl
  | cons c cs ih => rw [encode, List.flatMap_cons, run_utf8EncodeChar, ← encode, ih]

theorem encode_inj {a b : List Char} (h : encode a = encode b) : a = b := by
  rw [← run_encode a, h, run_encode]

/-! ## The mark at the start -/

theorem ofNat_inj {m n : Nat} (hm : m < 256) (hn : n < 256) (h : UInt8.ofNat m = UInt8.ofNat n) : m = n := by
  rw [← UInt8.toNat_ofNat_of_lt' hm, h, UInt8.toNat_ofNat_of_lt' hn]

/-- The three bytes of the mark begin no other character. -/
theorem mark_eq_of_starts {c : Char} {bs : Bytes} (h : [0xEF, 0xBB, 0xBF] <+: String.utf8EncodeChar c ++ bs) : c = mark := by
  have hself : Char.ofNat c.val.toNat = c := Char.ofNat_toNat c
  have hvalid : c.val.toNat < 0xD800 ∨ 0xDFFF < c.val.toNat ∧ c.val.toNat < 0x110000 := c.valid
  revert h
  fun_cases String.utf8EncodeChar with
  | case1 v h₁ =>
      intro h
      simp only [List.cons_append, List.cons_prefix_cons] at h
      have := ofNat_inj (m := 0xEF) (by decide) (by omega) h.1
      omega
  | case2 v h₁ h₂ =>
      intro h
      simp only [List.cons_append, List.cons_prefix_cons] at h
      have := ofNat_inj (m := 0xEF) (by decide) (by omega) h.1
      omega
  | case3 v h₁ h₂ h₃ =>
      intro h
      simp only [List.cons_append, List.cons_prefix_cons] at h
      have ha := ofNat_inj (m := 0xEF) (by decide) (by omega) h.1
      have hb := ofNat_inj (m := 0xBB) (by decide) (by omega) h.2.1
      have hc := ofNat_inj (m := 0xBF) (by decide) (by omega) h.2.2.1
      have hv : v = 0xFEFF := by omega
      rw [← hself]
      exact congrArg Char.ofNat hv
  | case4 v h₁ h₂ h₃ =>
      intro h
      simp only [List.cons_append, List.cons_prefix_cons] at h
      have := ofNat_inj (m := 0xEF) (by decide) (by omega) h.1
      omega

theorem decode_encode {cs : List Char} (h : cs.head? ≠ some mark) : decode (encode cs) = cs := by
  have hno : [0xEF, 0xBB, 0xBF].isPrefixOf (encode cs) = false := by
    rw [Bool.eq_false_iff, ne_eq, List.isPrefixOf_iff_prefix]
    intro hp
    cases cs with
    | nil => simp at hp
    | cons c cs => exact h (congrArg some (mark_eq_of_starts hp))
  rw [decode, hno, if_neg Bool.false_ne_true, run_encode]

/-! ## A budget of bytes -/

/-- The longest prefix of `s` that takes at most `max` bytes. -/
structure Longest (max : Nat) (s p : List Char) : Prop where
  isPrefix : p <+: s
  fits : (encode p).length ≤ max
  longest : ∀ q, q <+: s → (encode q).length ≤ max → q <+: p

theorem Longest.self {max : Nat} {s : List Char} (h : (encode s).length ≤ max) : Longest max s s :=
  ⟨List.prefix_rfl, h, fun _ hq _ => hq⟩

/-- A last character that does not fit is not missed. -/
theorem Longest.snoc {max : Nat} {s p : List Char} {c : Char} (h : Longest max s p)
    (hc : max < (encode (s ++ [c])).length) : Longest max (s ++ [c]) p where
  isPrefix := h.isPrefix.trans (List.prefix_append _ _)
  fits := h.fits
  longest := by
    intro q hq hlen
    rcases List.prefix_concat_iff.mp hq with rfl | hq
    · omega
    · exact h.longest q hq hlen

theorem Longest.head? {max : Nat} {s p : List Char} (h : Longest max s p) {c : Char} (hs : s.head? ≠ some c) :
    p.head? ≠ some c := by
  obtain ⟨t, rfl⟩ := h.isPrefix
  cases p with
  | nil => simp
  | cons d p => exact hs

end EncedoChat.Utf8

/-!
# UTF-8 in pieces

What is decoded where the bytes come in pieces and each piece is decoded by itself: the same as of the whole, unless a
cut divides a character.
-/

namespace EncedoChat.Utf8

/-- The bytes of the pieces, each with whether a piece begins with it. -/
abbrev Marked := List (UInt8 × Bool)

def markPiece : Bytes → Marked
  | [] => []
  | b :: bs => (b, true) :: bs.map fun b => (b, false)

def marked (pieces : List Bytes) : Marked := pieces.flatMap markPiece

theorem map_markPiece (p : Bytes) : (markPiece p).map Prod.fst = p := by
  cases p <;> simp [markPiece, Function.comp_def]

theorem map_marked (pieces : List Bytes) : (marked pieces).map Prod.fst = pieces.flatten := by
  induction pieces with
  | nil => rfl
  | cons p ps ih =>
      rw [marked, List.flatMap_cons, List.map_append, map_markPiece, List.flatten_cons, ← ih]
      rfl

/-! ## The decoder, piece by piece -/

/-- The end of a piece breaks off what is read of a character. -/
def flush (s : State) : List Char := if s.needed = 0 then [] else [replacement]

def runCut (s : State) : Marked → List Char
  | [] => flush s
  | (b, true) :: ms => flush s ++ ((first b.toNat).2 ++ runCut (first b.toNat).1 ms)
  | (b, false) :: ms => (step s b.toNat).2 ++ runCut (step s b.toNat).1 ms

theorem runCut_whole (s : State) (bs : Bytes) (ms : Marked) (h : ms = [] ∨ ∃ b ms', ms = (b, true) :: ms') :
    runCut s (bs.map (fun b => (b, false)) ++ ms) = run s bs ++ runCut start ms := by
  induction bs generalizing s with
  | nil =>
      rcases h with rfl | ⟨b, ms', rfl⟩
      · simp [runCut, run, flush, start]
      · simp [runCut, run, flush, start]
  | cons b bs ih => rw [List.map_cons, List.cons_append, runCut, run, ih, List.append_assoc]

theorem marked_begins (pieces : List Bytes) : marked pieces = [] ∨ ∃ b ms, marked pieces = (b, true) :: ms := by
  induction pieces with
  | nil => exact .inl rfl
  | cons p ps ih =>
      cases p with
      | nil => exact ih
      | cons b bs => exact .inr ⟨b, _, rfl⟩

theorem runCut_marked (pieces : List Bytes) : runCut start (marked pieces) = pieces.flatMap (run start) := by
  induction pieces with
  | nil => rfl
  | cons p ps ih =>
      rw [List.flatMap_cons, marked, List.flatMap_cons, ← marked, ← ih]
      cases p with
      | nil => rfl
      | cons b bs =>
          rw [markPiece, List.cons_append, runCut, runCut_whole _ _ _ (marked_begins ps), run]
          simp [flush, start, step]

/-! ## Where a cut does no harm -/

/-- No piece begins with a byte that goes on with a character. -/
def Smooth (s : State) : Marked → Prop
  | [] => True
  | (b, cut) :: ms =>
    (cut = true → s.needed = 0 ∨ ¬(s.lower ≤ b.toNat ∧ b.toNat ≤ s.upper)) ∧ Smooth (step s b.toNat).1 ms

theorem runCut_smooth {s : State} {ms : Marked} (h : Smooth s ms) : runCut s ms = run s (ms.map Prod.fst) := by
  induction ms generalizing s with
  | nil => rfl
  | cons m ms ih =>
      obtain ⟨b, cut⟩ := m
      obtain ⟨hcut, hms⟩ := h
      rw [List.map_cons, run, ← ih hms]
      cases cut with
      | false => rfl
      | true =>
          rcases hcut rfl with hneeded | hrange
          · simp [runCut, flush, step, hneeded]
          · by_cases hneeded : s.needed = 0
            · simp [runCut, flush, step, hneeded]
            · simp [runCut, flush, step, hneeded, hrange]

/-! ## Where it does -/

theorem first_tail {n : Nat} (h : 0x80 ≤ n ∧ n ≤ 0xBF) : first n = (start, [replacement]) := by
  rw [first, if_neg (by omega), if_neg (by omega), if_neg (by omega), if_neg (by omega)]

/-- The bytes a state waits for go on with a character. -/
def Waits (s : State) : Prop := 0x80 ≤ s.lower ∧ s.upper ≤ 0xBF

theorem waits_first (n : Nat) : Waits (first n).1 := by
  unfold first
  repeat' split
  all_goals simp [Waits, start]

theorem waits_step (s : State) (n : Nat) : Waits (step s n).1 := by
  unfold step
  split
  · exact waits_first n
  · split
    · dsimp only
      split <;> exact ⟨le_rfl, le_rfl⟩
    · exact waits_first n

theorem Waits.tail {s : State} (h : Waits s) {n : Nat} (hn : s.lower ≤ n ∧ n ≤ s.upper) : 0x80 ≤ n ∧ n ≤ 0xBF :=
  ⟨h.1.trans hn.1, hn.2.trans h.2⟩

/-- A character that is begun makes one character at most of what follows it. -/
theorem length_run_le {s : State} (h : Waits s) (bs : Bytes) : (run s bs).length ≤ (run start bs).length + 1 := by
  induction bs generalizing s with
  | nil =>
      rw [run]
      split <;> simp
  | cons b bs ih =>
      have hstart : run start (b :: bs) = (first b.toNat).2 ++ run (first b.toNat).1 bs := rfl
      rw [run, hstart]
      unfold Utf8.step
      split
      · exact Nat.le_succ _
      · split
        · rename_i hrange
          rw [first_tail (h.tail hrange)]
          dsimp only
          split
          · simp
          · have := ih (s := ⟨s.point * 0x40 + b.toNat % 0x40, s.needed - 1, 0x80, 0xBF⟩) ⟨le_rfl, le_rfl⟩
            simp only [List.nil_append, List.length_append, List.length_singleton]
            omega
        · simp

/-- Pieces are decoded as the whole exactly where no cut divides a character; else there are more characters. -/
theorem length_runCut {s : State} (h : Waits s) (ms : Marked) :
    (run s (ms.map Prod.fst)).length ≤ (runCut s ms).length ∧
      ((run s (ms.map Prod.fst)).length = (runCut s ms).length → Smooth s ms) := by
  induction ms generalizing s with
  | nil => exact ⟨le_rfl, fun _ => trivial⟩
  | cons m ms ih =>
      obtain ⟨b, cut⟩ := m
      obtain ⟨hle, heq⟩ := ih (waits_step s b.toNat)
      rw [List.map_cons, run, List.length_append]
      dsimp only
      cases cut with
      | false =>
          rw [runCut, List.length_append]
          exact ⟨by omega, fun hlen => ⟨by simp, heq (by omega)⟩⟩
      | true =>
          by_cases hsafe : s.needed = 0 ∨ ¬(s.lower ≤ b.toNat ∧ b.toNat ≤ s.upper)
          · have hcut : runCut s ((b, true) :: ms) = (step s b.toNat).2 ++ runCut (step s b.toNat).1 ms := by
              rcases hsafe with hneeded | hrange
              · simp [runCut, flush, step, hneeded]
              · by_cases hneeded : s.needed = 0
                · simp [runCut, flush, step, hneeded]
                · simp [runCut, flush, step, hneeded, hrange]
            rw [hcut, List.length_append]
            exact ⟨by omega, fun hlen => ⟨fun _ => hsafe, heq (by omega)⟩⟩
          · rw [not_or, not_not] at hsafe
            obtain ⟨hneeded, hrange⟩ := hsafe
            -- the character that was begun is one replacement, and its next byte is another
            have hcut : runCut s ((b, true) :: ms) = replacement :: replacement :: runCut start ms := by
              rw [runCut, flush, if_neg hneeded, first_tail (h.tail hrange)]
              rfl
            have hrest := (ih (s := start) ⟨by decide, by decide⟩).1
            have hone : ((step s b.toNat).2).length + (run (step s b.toNat).1 (ms.map Prod.fst)).length ≤
                (run start (ms.map Prod.fst)).length + 1 := by
              have hrun := length_run_le (waits_step s b.toNat) (ms.map Prod.fst)
              by_cases hlast : s.needed = 1
              · simp only [step, if_neg hneeded, if_pos hrange, if_pos hlast, List.length_singleton]
                omega
              · have hnone : (step s b.toNat).2 = [] := by simp [step, hneeded, hrange, hlast]
                rw [hnone, List.length_nil]
                omega
            rw [hcut, List.length_cons, List.length_cons]
            exact ⟨by omega, fun hlen => absurd hlen (by omega)⟩

theorem runCut_eq_iff {s : State} (h : Waits s) (ms : Marked) : runCut s ms = run s (ms.map Prod.fst) ↔ Smooth s ms :=
  ⟨fun heq => (length_runCut h ms).2 (by rw [heq]), runCut_smooth⟩

theorem waits_start : Waits start := ⟨by decide, by decide⟩

/-! ## What is lost -/

/-- Some characters that are no ASCII are lost, each for two replacements or more. -/
inductive Garbled : List Char → List Char → Prop where
  | nil : Garbled [] []
  | keep (c : Char) {a b : List Char} : Garbled a b → Garbled (c :: a) (c :: b)
  | lose {c : Char} (k : Nat) {a b : List Char} : 0x80 ≤ c.toNat → Garbled a b →
      Garbled (c :: a) (List.replicate (k + 2) replacement ++ b)

def Tails (m : Marked) : Prop := ∀ e ∈ m, 0x80 ≤ e.1.toNat ∧ e.1.toNat ≤ 0xBF

theorem runCut_tails {m : Marked} (h : Tails m) (ms : Marked) :
    runCut start (m ++ ms) = List.replicate m.length replacement ++ runCut start ms := by
  induction m with
  | nil => rfl
  | cons e m ih =>
      obtain ⟨b, cut⟩ := e
      have hb := first_tail (h (b, cut) List.mem_cons_self)
      have hrest := ih fun e he => h e (List.mem_cons_of_mem _ he)
      have hstep : step start b.toNat = (start, [replacement]) := hb
      have hflush : flush start = [] := rfl
      rw [List.length_cons, List.replicate_succ, List.cons_append, List.cons_append, ← hrest]
      cases cut
      · rw [runCut, hstep]
        rfl
      · rw [runCut, hb, hflush]
        rfl

/-- Bytes that finish what the state has read of a character. -/
def Goes (s : State) : Bytes → Prop
  | [] => s = start
  | b :: bs => s.needed ≠ 0 ∧ (s.lower ≤ b.toNat ∧ b.toNat ≤ s.upper) ∧ (0x80 ≤ b.toNat ∧ b.toNat ≤ 0xBF) ∧
    Goes (step s b.toNat).1 bs

theorem Goes.tails {s : State} {m : Marked} (h : Goes s (m.map Prod.fst)) : Tails m := by
  induction m generalizing s with
  | nil => exact fun e he => by cases he
  | cons e m ih =>
      obtain ⟨-, -, htail, hrest⟩ := h
      exact List.forall_mem_cons.mpr ⟨htail, ih hrest⟩

/-- The rest of a character: read, or cut and lost for at least two replacements. -/
theorem runCut_goes {s : State} {m : Marked} (h : Goes s (m.map Prod.fst)) (ms : Marked) :
    runCut s (m ++ ms) = run s (m.map Prod.fst) ++ runCut start ms ∨
      ∃ k, runCut s (m ++ ms) = List.replicate (k + 2) replacement ++ runCut start ms := by
  induction m generalizing s with
  | nil =>
      obtain rfl := h
      exact .inl rfl
  | cons e m ih =>
      obtain ⟨b, cut⟩ := e
      obtain ⟨hneeded, hrange, htail, hrest⟩ := h
      cases cut with
      | true =>
          refine .inr ⟨m.length, ?_⟩
          rw [List.cons_append, runCut, first_tail htail, runCut_tails (Goes.tails hrest), flush, if_neg hneeded]
          rfl
      | false =>
          rw [List.cons_append, runCut, List.map_cons, run, List.append_assoc]
          by_cases hlast : s.needed = 1
          · have hstep : (step s b.toNat).1 = start := by simp [step, hrange, hlast]
            rw [hstep] at hrest ⊢
            obtain rfl : m = [] := by
              cases m with
              | nil => rfl
              | cons e m => exact absurd rfl hrest.1
            exact .inl rfl
          · have hnone : (step s b.toNat).2 = [] := by simp [step, hneeded, hrange, hlast]
            rw [hnone]
            exact ih hrest

/-- A character is one byte, or a byte and those that go on with it. -/
theorem utf8EncodeChar_goes (c : Char) : ∃ b bs, String.utf8EncodeChar c = b :: bs ∧
    (bs = [] ∧ (first b.toNat).1 = start ∨ 0x80 ≤ c.toNat ∧ (first b.toNat).2 = [] ∧ Goes (first b.toNat).1 bs) := by
  have hvalid : c.val.toNat < 0xD800 ∨ 0xDFFF < c.val.toNat ∧ c.val.toNat < 0x110000 := c.valid
  have hbyte : ∀ {n : Nat}, n < 256 → (UInt8.ofNat n).toNat = n := fun h => UInt8.toNat_ofNat_of_lt' h
  have hc : c.toNat = c.val.toNat := rfl
  fun_cases String.utf8EncodeChar with
  | case1 v h =>
      refine ⟨_, _, rfl, .inl ⟨rfl, ?_⟩⟩
      rw [hbyte (by omega), first_one (by omega)]
  | case2 v h₁ h₂ =>
      refine ⟨_, _, rfl, .inr ⟨by omega, ?_⟩⟩
      rw [hbyte (by omega), first_two (by omega) (by omega)]
      refine ⟨rfl, by simp, ?_⟩
      rw [hbyte (by omega), step_last (by omega) (by omega)]
      exact ⟨by dsimp only; omega, by omega, rfl⟩
  | case3 v h₁ h₂ h₃ =>
      refine ⟨_, _, rfl, .inr ⟨by omega, ?_⟩⟩
      rw [hbyte (by omega), first_three (by omega) (by omega)]
      refine ⟨rfl, by simp, ?_⟩
      rw [hbyte (by omega), step_more (by split <;> omega) (by split <;> omega)]
      refine ⟨⟨by dsimp only; split <;> omega, by dsimp only; split <;> omega⟩, by omega, by simp, ?_⟩
      rw [hbyte (by omega), step_last (by omega) (by omega)]
      exact ⟨by dsimp only; omega, by omega, rfl⟩
  | case4 v h₁ h₂ h₃ =>
      refine ⟨_, _, rfl, .inr ⟨by omega, ?_⟩⟩
      rw [hbyte (by omega), first_four (by omega) (by omega)]
      refine ⟨rfl, by simp, ?_⟩
      rw [hbyte (by omega), step_more (by split <;> omega) (by split <;> omega)]
      refine ⟨⟨by dsimp only; split <;> omega, by dsimp only; split <;> omega⟩, by omega, by simp, ?_⟩
      rw [hbyte (by omega), step_more (by omega) (by omega)]
      refine ⟨by dsimp only; omega, by omega, by simp, ?_⟩
      rw [hbyte (by omega), step_last (by omega) (by omega)]
      exact ⟨by dsimp only; omega, by omega, rfl⟩

/-- Text in pieces is garbled text. -/
theorem runCut_encode (cs : List Char) (ms : Marked) (h : ms.map Prod.fst = encode cs) : Garbled cs (runCut start ms) := by
  induction cs generalizing ms with
  | nil =>
      obtain rfl := List.map_eq_nil_iff.mp h
      exact .nil
  | cons c cs ih =>
      rw [encode, List.flatMap_cons] at h
      obtain ⟨m, ms, rfl, hm, hms⟩ := List.map_eq_append_iff.mp h
      obtain ⟨b, bs, hbytes, hgoes⟩ := utf8EncodeChar_goes c
      have hread : (first b.toNat).2 ++ run (first b.toNat).1 bs = [c] := by
        have hrun := run_utf8EncodeChar c []
        rw [List.append_nil, hbytes] at hrun
        exact hrun
      rw [hbytes] at hm
      obtain ⟨⟨b', cut⟩, m, rfl, rfl, rfl⟩ := List.map_eq_cons_iff.mp hm
      dsimp only at hread hgoes
      -- the first byte of a character may begin a piece
      have hfirst : runCut start ((b', cut) :: m ++ ms) = (first b'.toNat).2 ++ runCut (first b'.toNat).1 (m ++ ms) := by
        cases cut <;> rfl
      rw [hfirst]
      rcases hgoes with ⟨hnil, hstart⟩ | ⟨hascii, hnone, hgoes⟩
      · obtain rfl := List.map_eq_nil_iff.mp hnil
        have hc : (first b'.toNat).2 = [c] := by simpa [hstart, run, start] using hread
        rw [hstart, hc]
        exact .keep c (ih ms hms)
      · rw [hnone, List.nil_append] at hread ⊢
        rcases runCut_goes hgoes ms with heq | ⟨k, heq⟩
        · rw [heq, hread]
          exact .keep c (ih ms hms)
        · rw [heq]
          exact .lose k hascii (ih ms hms)

end EncedoChat.Utf8
