import EncedoChat.Lib.JsonBytes
import EncedoChat.Lib.JsonGarbled

/-!
# The daemon's lines

`daemon.ts`: a stream of bytes, as the socket cuts it, into lines of JSON. A chunk is made a string by itself.
-/

namespace EncedoChat.Daemon

open Units JsonText

def NEWLINE : UInt16 := 0x0A

inductive Call where
  | onObj (o : Value)
  | onBad (line : Units)

/-- `String(chunk)` -/
def chunkText (chunk : Bytes) : Units := ofChars (Utf8.run Utf8.start chunk)

section
variable (F : Doubles)

def onLine (line : Units) : List Call :=
  let line := trim line
  if line = [] then []
  else match parse F line with
    | some o => [.onObj o]
    | none => [.onBad line]

/-- One chunk: the lines that are complete are called with, and `buf` is what comes after them. -/
def receive (buf : Units) (chunk : Bytes) : List Call × Units :=
  let parts := (buf ++ chunkText chunk).splitOn NEWLINE
  (parts.dropLast.flatMap (onLine F), parts.getLast?.getD [])

def receiveAll (buf : Units) : List Bytes → List Call
  | [] => []
  | chunk :: chunks => (receive F buf chunk).1 ++ receiveAll (receive F buf chunk).2 chunks

/-- What `lineReader` calls, of all that comes. -/
def lineReader (chunks : List Bytes) : List Call := receiveAll F [] chunks

end

/-! ## The calls are those of the text -/

theorem splitOn_lines {ls : List Units} (h : ∀ l ∈ ls, NEWLINE ∉ l) (r : Units) :
    ((ls.flatMap fun l => l ++ [NEWLINE]) ++ r).splitOn NEWLINE = ls ++ r.splitOn NEWLINE := by
  induction ls with
  | nil => rfl
  | cons l ls ih =>
      rw [List.flatMap_cons, List.append_assoc, List.append_assoc, List.singleton_append,
        List.splitOn_append_cons_self_of_not_mem (h l List.mem_cons_self),
        ih fun m hm => h m (List.mem_cons_of_mem l hm)]
      rfl

/-- A text as its complete lines and the rest. -/
theorem exists_lines (s : Units) : ∃ (ls : List Units) (r : Units), s = (ls.flatMap fun l => l ++ [NEWLINE]) ++ r ∧ (∀ l ∈ ls, NEWLINE ∉ l) ∧
    NEWLINE ∉ r := by
  induction s with
  | nil => exact ⟨[], [], rfl, by simp, by simp⟩
  | cons u s ih =>
      obtain ⟨ls, r, rfl, hls, hr⟩ := ih
      by_cases hu : u = NEWLINE
      · exact ⟨[] :: ls, r, by simp [hu], List.forall_mem_cons.mpr ⟨by simp, hls⟩, hr⟩
      · cases ls with
        | nil => exact ⟨[], u :: r, rfl, hls, by simpa using ⟨Ne.symm hu, hr⟩⟩
        | cons l ls =>
            obtain ⟨hl, hls⟩ := List.forall_mem_cons.mp hls
            exact ⟨(u :: l) :: ls, r, by simp, List.forall_mem_cons.mpr ⟨by simpa using ⟨Ne.symm hu, hl⟩, hls⟩, hr⟩

theorem splitOn_text {ls : List Units} {r : Units} (hls : ∀ l ∈ ls, NEWLINE ∉ l) (hr : NEWLINE ∉ r) :
    ((ls.flatMap fun l => l ++ [NEWLINE]) ++ r).splitOn NEWLINE = ls ++ [r] := by
  rw [splitOn_lines hls, List.splitOn_eq_singleton hr]

variable {F : Doubles}

theorem receiveAll_eq {buf : Units} (hbuf : NEWLINE ∉ buf) (chunks : List Bytes) : receiveAll F buf chunks =
    ((buf ++ chunks.flatMap chunkText).splitOn NEWLINE).dropLast.flatMap (onLine F) := by
  induction chunks generalizing buf with
  | nil => simp [receiveAll, List.splitOn_eq_singleton hbuf]
  | cons chunk chunks ih =>
      obtain ⟨ls, r, htext, hls, hr⟩ := exists_lines (buf ++ chunkText chunk)
      have hreceive : receive F buf chunk = (ls.flatMap (onLine F), r) := by
        simp [receive, htext, splitOn_text hls hr]
      rw [receiveAll, hreceive, ih hr, List.flatMap_cons, ← List.append_assoc, htext, List.append_assoc, splitOn_lines hls,
        List.dropLast_append_of_ne_nil (List.splitOn_ne_nil _ _), List.flatMap_append]

/-- However the text came in strings, the calls are those of its lines. -/
theorem lineReader_eq (chunks : List Bytes) : lineReader F chunks =
    ((chunks.flatMap chunkText).splitOn NEWLINE).dropLast.flatMap (onLine F) :=
  receiveAll_eq (by simp) chunks

theorem ofChars_inj {a b : List Char} (h : ofChars a = ofChars b) : a = b := by
  apply Utf8.encode_inj
  rw [← utf8_ofChars, h, utf8_ofChars]

/-- No chunk begins with a byte that goes on with a character. -/
def Smooth (chunks : List Bytes) : Prop := Utf8.Smooth Utf8.start (Utf8.marked chunks)

theorem chunkText_eq (chunks : List Bytes) :
    chunks.flatMap chunkText = ofChars (Utf8.runCut Utf8.start (Utf8.marked chunks)) := by
  rw [Utf8.runCut_marked]
  induction chunks with
  | nil => rfl
  | cons chunk chunks ih => rw [List.flatMap_cons, ih, List.flatMap_cons, ofChars_append, chunkText]

theorem Smooth.text {chunks : List Bytes} (h : Smooth chunks) : chunks.flatMap chunkText = chunkText chunks.flatten := by
  rw [chunkText_eq, Utf8.runCut_smooth h, Utf8.map_marked, chunkText]

/-! ## Objects -/

/-- An object, as JSON has it: its numbers are doubles, each of its keys is there once. -/
structure JsonObject (F : Doubles) where
  members : List (Units × Value)
  holds : (Value.obj members).All F.Holds

/-- `JSON.stringify(o) + '\n'` -/
def JsonObject.line (o : JsonObject F) : Units := stringify F (.obj o.members) ++ [NEWLINE]

def stream (os : List (JsonObject F)) : Bytes := os.flatMap fun o => utf8 o.line

theorem line_text (os : List (JsonObject F)) : ∃ cs, stream os = Utf8.encode cs ∧ os.flatMap JsonObject.line = ofChars cs := by
  induction os with
  | nil => exact ⟨[], rfl, rfl⟩
  | cons o os ih =>
      obtain ⟨cs, hstream, htext⟩ := ih
      have hnewline : WellFormed [NEWLINE] := wellFormed_one (by decide)
      obtain ⟨c, hc⟩ : WellFormed o.line := (wellFormed_stringify _ o.holds).append hnewline
      exact ⟨c ++ cs, by rw [stream, List.flatMap_cons, ← stream, hstream, hc, utf8_ofChars, Utf8.encode_append],
        by rw [List.flatMap_cons, htext, hc, ofChars_append]⟩

theorem lineReader_lines {ws : List (List (Units × Value))} (h : ∀ w ∈ ws, (Value.obj w).Each F.Holds)
    {chunks : List Bytes} (htext : chunks.flatMap chunkText = ws.flatMap fun w => stringify F (.obj w) ++ [NEWLINE]) :
    lineReader F chunks = ws.map fun w => .onObj (Value.obj w).merge := by
  have hlines : chunks.flatMap chunkText = ((ws.map fun w => stringify F (.obj w)).flatMap fun l => l ++ [NEWLINE]) ++ [] := by
    rw [htext, List.flatMap_map, List.append_nil]
  have hone : ∀ l ∈ ws.map fun w => stringify F (.obj w), NEWLINE ∉ l := by
    intro l hl hmem
    obtain ⟨w, hw, rfl⟩ := List.mem_map.mp hl
    exact absurd (stringify_printing _ (h w hw) NEWLINE hmem) (by decide)
  rw [lineReader_eq, hlines, splitOn_text hone (by simp), List.dropLast_concat, List.flatMap_map]
  have hcall : ∀ w ∈ ws, onLine F (stringify F (.obj w)) = [.onObj (Value.obj w).merge] := by
    intro w hw
    obtain ⟨hne, htrimmed⟩ := trimmed_obj (F := F) w
    simp only [onLine, htrimmed.trim_eq, if_neg hne, parse_merge (h w hw)]
  rw [List.map_eq_flatMap]
  exact List.flatMap_congr hcall

theorem gone_lines (os : List (JsonObject F)) {qs : List Units} (h : Gone (points (os.flatMap JsonObject.line)) qs) :
    ∃ ws : List (List (Units × Value)), qs.flatten = (ws.flatMap fun w => stringify F (.obj w) ++ [NEWLINE]) ∧
      (∀ w ∈ ws, (Value.obj w).Each F.Holds) ∧
      ((ws.map fun w => (Value.obj w).merge) = (os.map fun o => .obj o.members) → ws = os.map JsonObject.members) := by
  induction os generalizing qs with
  | nil =>
      cases h
      exact ⟨[], rfl, by simp, fun _ => rfl⟩
  | cons o os ih =>
      have hascii : Ascii NEWLINE := (by decide : (0x0A : UInt16) < 0x80)
      rw [List.flatMap_cons, JsonObject.line, List.append_assoc, List.singleton_append] at h
      obtain ⟨w, q, hq, heq, hw, hwm, hobj⟩ :=
        gone_value _ (Value.All.merged _ o.holds).1 (clean_cons hascii _) h
      obtain ⟨q', rfl, hq'⟩ := hq.cons_ascii hascii
      obtain ⟨ws, hws, heach, hmerge⟩ := ih hq'
      obtain ⟨kvs, rfl⟩ := hobj ⟨_, rfl⟩
      refine ⟨kvs :: ws, ?_, List.forall_mem_cons.mpr ⟨hw, heach⟩, fun hm => ?_⟩
      · rw [heq, List.flatten_cons, hws, List.flatMap_cons, List.append_assoc, List.singleton_append]
      · rw [List.map_cons, List.map_cons, List.cons.injEq] at hm
        rw [List.map_cons, hmerge hm.2, ← Value.obj.inj (hwm hm.1)]

theorem garbled_gone {a b : List Char} (h : Utf8.Garbled a b) : Gone (a.map ofChar) (b.map ofChar) := by
  induction h with
  | nil => exact .nil
  | keep c _ ih => exact .keep _ ih
  | @lose c k a b hc _ ih =>
      have hascii : ∀ u ∈ ofChar c, ¬Ascii u := by
        intro u hu hascii
        have hlt : u.toNat < 0x80 := UInt16.lt_iff_toNat_lt.mp hascii
        rcases ofChar_cases c with ⟨v, hv, hn, -, -⟩ | ⟨v, l, hvl, -, -, -, hv, hl⟩
        · rw [hv, List.mem_singleton] at hu
          rw [hu] at hlt
          omega
        · rw [hvl, List.mem_cons, List.mem_singleton] at hu
          rcases hu with rfl | rfl <;> omega
      rw [List.map_append, List.map_replicate]
      exact .lose k hascii ih

/-! ## Cuttings -/

/-- The calls are those of the objects sent exactly where no cut divides a character; and any two cuttings that divide
none make the same calls, the text that is put together being that of the whole stream exactly then. -/
theorem lines_told (F : Doubles) :
    (∀ (os : List (JsonObject F)) (chunks : List Bytes), chunks.flatten = stream os →
      (lineReader F chunks = (os.map fun o => .onObj (.obj o.members)) ↔ Smooth chunks)) ∧
    (∀ chunks chunks' : List Bytes, chunks.flatten = chunks'.flatten → Smooth chunks → Smooth chunks' →
      lineReader F chunks = lineReader F chunks') ∧
    ∀ chunks : List Bytes, chunks.flatMap chunkText = chunkText chunks.flatten ↔ Smooth chunks := by
  have htext : ∀ chunks : List Bytes, chunks.flatMap chunkText = chunkText chunks.flatten ↔ Smooth chunks := by
    intro chunks
    refine ⟨fun h => ?_, Smooth.text⟩
    rw [chunkText_eq, chunkText] at h
    rw [Smooth, ← Utf8.runCut_eq_iff Utf8.waits_start, Utf8.map_marked]
    exact ofChars_inj h
  refine ⟨fun os chunks hchunks => ?_, fun chunks chunks' heq h h' => ?_, htext⟩
  · obtain ⟨cs, hstream, hline⟩ := line_text os
    have hwhole : chunkText chunks.flatten = os.flatMap JsonObject.line := by
      rw [hchunks, hstream, chunkText, Utf8.run_encode, hline]
    constructor
    · intro hcalls
      have hgarbled := garbled_gone (Utf8.runCut_encode cs (Utf8.marked chunks) (by rw [Utf8.map_marked, hchunks, hstream]))
      rw [← points_ofChars, ← hline] at hgarbled
      obtain ⟨ws, hflat, heach, hmerge⟩ := gone_lines os hgarbled
      have htold : chunks.flatMap chunkText = ws.flatMap fun w => stringify F (.obj w) ++ [NEWLINE] := by
        rw [chunkText_eq, ← hflat, ofChars, List.flatMap_def]
      rw [lineReader_lines heach htold] at hcalls
      have hvalues : ws.map _ = os.map _ := List.map_injective_iff.mpr (fun _ _ => Call.onObj.inj)
        (by rw [List.map_map, List.map_map]; exact hcalls)
      rw [← htext, hwhole, htold, hmerge hvalues, List.flatMap_map]
      rfl
    · intro h
      have htold : chunks.flatMap chunkText =
          (os.map JsonObject.members).flatMap fun w => stringify F (.obj w) ++ [NEWLINE] := by
        rw [h.text, hwhole, List.flatMap_map]
        rfl
      have heach : ∀ w ∈ os.map JsonObject.members, (Value.obj w).Each F.Holds := by
        intro w hw
        obtain ⟨o, -, rfl⟩ := List.mem_map.mp hw
        exact (Value.All.merged _ o.holds).1
      rw [lineReader_lines heach htold, List.map_map]
      exact List.map_congr_left fun o _ => congrArg Call.onObj (Value.All.merged _ o.holds).2
  · rw [lineReader_eq, lineReader_eq, h.text, h'.text, heq]

theorem sample_holds : (Value.obj [([0x74], .str [0xF3])]).All Doubles.whole.Holds := ⟨by simp, trivial, trivial⟩

/-- `{"t":"ó"}` -/
def sample : JsonObject .whole := ⟨[([0x74], .str [0xF3])], sample_holds⟩

/-- A cut before the `ó`, and one behind it. -/
theorem lines_told_sample :
    lineReader .whole [[0x7B, 0x22, 0x74, 0x22, 0x3A, 0x22], [0xC3, 0xB3, 0x22, 0x7D, 0x0A]] =
        [.onObj (.obj sample.members)] ∧
      lineReader .whole [[0x7B, 0x22, 0x74, 0x22, 0x3A, 0x22], [0xC3, 0xB3, 0x22, 0x7D, 0x0A]] =
        lineReader .whole [[0x7B, 0x22, 0x74, 0x22, 0x3A, 0x22, 0xC3, 0xB3], [0x22, 0x7D, 0x0A]] := by
  have h := lines_told Doubles.whole
  have hbefore : Smooth [[0x7B, 0x22, 0x74, 0x22, 0x3A, 0x22], [0xC3, 0xB3, 0x22, 0x7D, 0x0A]] := by
    simp [Smooth, Utf8.Smooth, Utf8.marked, Utf8.markPiece, Utf8.start, Utf8.step, Utf8.first]
  have hbehind : Smooth [[0x7B, 0x22, 0x74, 0x22, 0x3A, 0x22, 0xC3, 0xB3], [0x22, 0x7D, 0x0A]] := by
    simp [Smooth, Utf8.Smooth, Utf8.marked, Utf8.markPiece, Utf8.start, Utf8.step, Utf8.first]
  exact ⟨(h.1 [sample] _ (by decide +kernel)).mpr hbefore, h.2.1 _ _ rfl hbefore hbehind⟩

/-- The two bytes of `ó` in a chunk each. -/
def halves : List Bytes := [[0x7B, 0x22, 0x74, 0x22, 0x3A, 0x22, 0xC3], [0xB3, 0x22, 0x7D, 0x0A]]

theorem lines_told_garbled : halves.flatten = stream [sample] ∧
    lineReader .whole halves = [.onObj (.obj [([0x74], .str [0xFFFD, 0xFFFD])])] ∧
    lineReader .whole halves ≠ [.onObj (.obj sample.members)] := by
  have hcalls : lineReader .whole halves = [.onObj (.obj [([0x74], .str [0xFFFD, 0xFFFD])])] := by rfl
  refine ⟨by decide +kernel, hcalls, ?_⟩
  rw [hcalls]
  simp [sample]

end EncedoChat.Daemon
