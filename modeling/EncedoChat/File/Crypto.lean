import EncedoChat.Lib.Bytes
import EncedoChat.Lib.Except
import EncedoChat.Lib.Json
import EncedoChat.Lib.Aead

/-!
# How a file is cut

`planChunks` of `lib/filecrypto.ts` and what `decodeEnvelope` of `lib/envelope.ts` takes for a file: the receiver's
manifest obeys the sender's limits.
-/

namespace EncedoChat.File

def MAX_CHUNK : Nat := 16 * 1024 * 1024

def MAX_FILE : Nat := 128 * 1024 * 1024

def FILE_ALG : String := "A256GCM-chunked-v1"

/-- Bytes of an AES-GCM tag. -/
def TAG : Nat := 16

structure FileManifest where
  alg : String
  /-- plaintext bytes of a chunk -/
  chunk : Nat
  chunks : Nat
  /-- plaintext bytes of the file -/
  size : Nat
  deriving DecidableEq

/-- `Math.max(1, Math.ceil(size / chunk))`; the quotient is far from where doubles would round it to another number. -/
def count (size chunk : Nat) : Nat := max 1 ((size + (chunk - 1)) / chunk)

def planChunks (size chunk : Nat) : Except String FileManifest := do
  refuse (MAX_FILE < size) ("file is " ++ toString size ++ " B, limit is " ++ toString MAX_FILE ++ " B")
  refuse (chunk = 0 ∨ MAX_CHUNK < chunk) ("chunk size out of range: " ++ toString chunk)
  return ⟨FILE_ALG, chunk, count size chunk, size⟩

def ENVELOPE_V : Int := 1

/-- `typeof v === 'number'` -/
def isNumber : Option Json → Bool
  | some (.num _) | some (.infinity _) => true
  | _ => false

def isText (v : Option Json) : Bool := (Json.asStr v).isSome

/-- The number, if `Number.isInteger(v)` and it is not negative. -/
def natural : Option Json → Option Nat
  | some (.num q) => if q.den = 1 ∧ 0 ≤ q.num then some q.num.toNat else none
  | _ => none

/-- The manifest in an envelope that `decodeEnvelope` takes for a file. -/
def decodeFile (m : Json) : Option FileManifest :=
  if Json.isNum (m.field "v") ENVELOPE_V ∧ Json.isStr (m.field "t") "file" ∧ isText (m.field "id") ∧
      isNumber (m.field "ts") ∧ isNumber (m.field "seq") ∧ isText (m.field "cid") ∧ isText (m.field "name") ∧
      isText (m.field "mime") ∧ isText (m.field "key") ∧ Json.isStr (m.field "alg") FILE_ALG ∧
      isNumber (m.field "exp") ∧ ((m.field "body").isNone ∨ isText (m.field "body")) then
    match natural (m.field "size"), natural (m.field "chunk"), natural (m.field "chunks") with
    | some size, some chunk, some chunks =>
      if size ≤ MAX_FILE ∧ 0 < chunk ∧ chunk ≤ MAX_CHUNK ∧ chunks = count size chunk then
        some ⟨FILE_ALG, chunk, chunks, size⟩
      else none
    | _, _, _ => none
  else none

/-- A manifest within the limits, with the number of chunks its size needs. -/
structure FileManifest.Sound (m : FileManifest) : Prop where
  alg : m.alg = FILE_ALG
  size : m.size ≤ MAX_FILE
  pos : 0 < m.chunk
  chunk : m.chunk ≤ MAX_CHUNK
  chunks : m.chunks = count m.size m.chunk

theorem planChunks_sound {size chunk : Nat} {m : FileManifest} (h : planChunks size chunk = .ok m) :
    m.Sound ∧ m.size = size ∧ m.chunk = chunk := by
  simp only [planChunks, bind_ok, exists_unit, refuse_ok, not_or] at h
  obtain ⟨hsize, ⟨hpos, hchunk⟩, hm⟩ := h
  obtain rfl := Except.ok.inj hm
  exact ⟨⟨rfl, Nat.not_lt.mp hsize, Nat.pos_of_ne_zero hpos, Nat.not_lt.mp hchunk, rfl⟩, rfl, rfl⟩

theorem planChunks_ok {size chunk : Nat} (hsize : size ≤ MAX_FILE) (hpos : 0 < chunk) (hchunk : chunk ≤ MAX_CHUNK) :
    planChunks size chunk = .ok ⟨FILE_ALG, chunk, count size chunk, size⟩ := by
  simp only [planChunks, bind_ok, exists_unit, refuse_ok, not_or]
  exact ⟨Nat.not_lt.mpr hsize, ⟨hpos.ne', Nat.not_lt.mpr hchunk⟩, rfl⟩

/-- What the receiver takes is what a sender may have planned. -/
theorem decodeFile_sound {env : Json} {m : FileManifest} (h : decodeFile env = some m) : m.Sound := by
  rw [decodeFile] at h
  split at h
  · split at h
    · split at h
      · rename_i hok
        obtain rfl := Option.some.inj h
        exact ⟨rfl, hok.1, hok.2.1, hok.2.2.1, hok.2.2.2⟩
      · cases h
    · cases h
  · cases h

namespace FileManifest.Sound

variable {m : FileManifest} (h : m.Sound)

include h

theorem chunks_pos : 0 < m.chunks := by
  rw [h.chunks, count]
  exact Nat.lt_of_lt_of_le Nat.zero_lt_one (Nat.le_max_left ..)

/-- The chunks reach the end of the file. -/
theorem covers : m.size ≤ m.chunks * m.chunk := by
  have hdiv : m.size ≤ (m.size + (m.chunk - 1)) / m.chunk * m.chunk := by
    have := Nat.div_add_mod' (m.size + (m.chunk - 1)) m.chunk
    have := Nat.mod_lt (m.size + (m.chunk - 1)) h.pos
    omega
  exact hdiv.trans (Nat.mul_le_mul_right _ (h.chunks ▸ Nat.le_max_right ..))

/-- The last chunk begins within the file. -/
theorem last_le : (m.chunks - 1) * m.chunk ≤ m.size := by
  rw [h.chunks, count]
  rcases Nat.le_total ((m.size + (m.chunk - 1)) / m.chunk) 1 with hle | hle
  · rw [Nat.max_eq_left hle, Nat.sub_self, Nat.zero_mul]
    exact Nat.zero_le _
  · rw [Nat.max_eq_right hle, Nat.sub_mul]
    have := Nat.div_mul_le_self (m.size + (m.chunk - 1)) m.chunk
    omega

theorem chunks_lt : m.chunks < 2 ^ 32 := by
  have hle := h.last_le
  have hmul : (m.chunks - 1) * 1 ≤ (m.chunks - 1) * m.chunk := Nat.mul_le_mul_left _ h.pos
  have hsize := h.size
  simp only [MAX_FILE] at hsize
  omega

end FileManifest.Sound

end EncedoChat.File

/-!
# A file in chunks

`lib/filecrypto.ts`. AES-GCM is what WebCrypto gives: sealing adds a tag, and opening is a function of its own, which
may be that of the same key or an ideal one that opens what was sealed and nothing else.
-/

namespace EncedoChat.File

/-- `subtle.decrypt` for AES-GCM: under a key, a nonce and associated data; `none` is its refusal. -/
abbrev Open := Bytes → Bytes → Bytes → Bytes → Option Bytes

/-- `subtle.encrypt` and `subtle.decrypt`: a tag is added, and what was encrypted is decrypted again. -/
structure Gcm where
  encrypt (key nonce aad plain : Bytes) : Bytes
  decrypt : Open
  length_encrypt : ∀ key nonce aad plain, (encrypt key nonce aad plain).length = plain.length + TAG
  decrypt_encrypt : ∀ key nonce aad plain, decrypt key nonce aad (encrypt key nonce aad plain) = some plain

def nonce (index : Nat) : Bytes := [0, 0, 0, 0] ++ Bytes.u64be index

/-- Position and count, bound into every chunk. -/
def aad (index total : Nat) : Bytes := Bytes.u32be index ++ Bytes.u32be total

def importKey (raw : Bytes) : Except String Unit :=
  refuse (raw.length ≠ 32) ("file key must be 32 B, got " ++ toString raw.length)

/-- `Math.max(0, plain) + TAG` -/
def chunkCipherLen (m : FileManifest) (index : Nat) : Nat :=
  (if index + 1 = m.chunks then m.size - index * m.chunk else m.chunk) + TAG

def inRange (m : FileManifest) (index : Nat) : Except String Unit :=
  refuse (m.chunks ≤ index) ("chunk " ++ toString index ++ " outside 0.." ++ toString (m.chunks - 1))

def encryptChunk (G : Gcm) (key : Bytes) (m : FileManifest) (index : Nat) (plain : Bytes) : Except String Bytes := do
  inRange m index
  importKey key
  return G.encrypt key (nonce index) (aad index m.chunks) plain

def decryptChunk (dec : Open) (key : Bytes) (m : FileManifest) (index : Nat) (ct : Bytes) : Except String Bytes := do
  inRange m index
  importKey key
  (dec key (nonce index) (aad index m.chunks) ct).elim (.error "OperationError") .ok

/-- `plain.subarray(i * chunk, (i + 1) * chunk)` -/
def piece (plain : Bytes) (chunk index : Nat) : Bytes := plain.slice (index * chunk) ((index + 1) * chunk)

def encryptBytes (G : Gcm) (key plain : Bytes) (chunk : Nat) : Except String (FileManifest × Bytes) := do
  let m ← planChunks plain.length chunk
  let parts ← (List.range m.chunks).mapM fun i => encryptChunk G key m i (piece plain m.chunk i)
  return (m, parts.flatten)

/-- `out.set(pt, offset)` -/
def setAt (out pt : Bytes) (offset : Nat) : Except String Bytes := do
  refuse (out.length < offset + pt.length) "offset is out of bounds"
  return out.take offset ++ pt ++ out.drop (offset + pt.length)

/-- What a round of the loop of `decryptBytes` keeps. -/
structure Reading where
  out : Bytes
  ctAt : Nat
  ptAt : Nat

def decryptRound (dec : Open) (key : Bytes) (m : FileManifest) (cipher : Bytes) (r : Reading) (i : Nat) :
    Except String Reading := do
  let len := chunkCipherLen m i
  let pt ← decryptChunk dec key m i (cipher.slice r.ctAt (r.ctAt + len))
  let out ← setAt r.out pt r.ptAt
  return ⟨out, r.ctAt + len, r.ptAt + pt.length⟩

/-- The length of the first chunks together. -/
def cipherLen (m : FileManifest) (n : Nat) : Nat := ((List.range n).map (chunkCipherLen m)).sum

def decryptBytes (dec : Open) (key : Bytes) (m : FileManifest) (cipher : Bytes) : Except String Bytes := do
  refuse (m.alg ≠ FILE_ALG) ("unknown file algorithm: " ++ m.alg)
  refuse (cipher.length ≠ cipherLen m m.chunks)
    ("ciphertext is " ++ toString cipher.length ++ " B, manifest says " ++ toString (cipherLen m m.chunks) ++ " B")
  let r ← (List.range m.chunks).foldlM (decryptRound dec key m cipher) ⟨List.replicate m.size 0, 0, 0⟩
  return r.out

/-! ## Where the chunks stand -/

theorem cipherLen_succ (m : FileManifest) (n : Nat) : cipherLen m (n + 1) = cipherLen m n + chunkCipherLen m n := by
  simp [cipherLen, List.range_succ]

theorem cipherLen_mono (m : FileManifest) : Monotone (cipherLen m) :=
  monotone_nat_of_le_succ fun n => cipherLen_succ m n ▸ Nat.le_add_right ..

/-- Chunk by chunk the plaintext comes back. -/
theorem flatten_pieces (plain : Bytes) (chunk n : Nat) :
    ((List.range n).map (piece plain chunk)).flatten = plain.take (n * chunk) := by
  induction n with
  | zero => simp
  | succ n ih =>
      have hmul : n * chunk ≤ (n + 1) * chunk := Nat.mul_le_mul_right _ (Nat.le_succ n)
      have h := Bytes.slice_append_slice plain (Nat.zero_le (n * chunk)) hmul
      rw [List.range_succ, List.map_append, List.flatten_append, ih]
      simpa [Bytes.slice, piece] using h

variable {m : FileManifest}

/-- The ciphertext lengths of a manifest are those of the pieces of a file of its size, and their tags. -/
theorem FileManifest.Sound.length_piece (h : m.Sound) {plain : Bytes} (hsize : plain.length = m.size) {i : Nat}
    (hi : i < m.chunks) : (piece plain m.chunk i).length + TAG = chunkCipherLen m i := by
  rw [chunkCipherLen, piece, Bytes.slice, List.length_take, List.length_drop, hsize, Nat.add_one_mul]
  by_cases hlast : i + 1 = m.chunks
  · have hcov := h.covers
    rw [← hlast, Nat.add_one_mul] at hcov
    rw [if_pos hlast]
    omega
  · have hle : (i + 1) * m.chunk ≤ m.size := by
      exact (Nat.mul_le_mul_right _ (by omega)).trans h.last_le
    rw [Nat.add_one_mul] at hle
    rw [if_neg hlast]
    omega

/-- All of them are the size and a tag for each. -/
theorem FileManifest.Sound.cipherLen_all (h : m.Sound) : cipherLen m m.chunks = m.size + m.chunks * TAG := by
  have hlen : ∀ n ≤ m.chunks, cipherLen m n = ((List.range n).map (piece (List.replicate m.size 0) m.chunk)).flatten.length +
      n * TAG := by
    intro n hn
    have hrep : (List.replicate m.size (0 : UInt8)).length = m.size := List.length_replicate ..
    induction n with
    | zero => simp [cipherLen]
    | succ n ih =>
        rw [cipherLen_succ, ih (by omega), ← h.length_piece hrep hn, List.range_succ, List.map_append,
          List.flatten_append, List.length_append]
        simp only [List.map_cons, List.map_nil, List.flatten_cons, List.flatten_nil, List.append_nil]
        rw [Nat.add_one_mul]
        omega
  rw [hlen _ le_rfl, flatten_pieces, List.length_take, List.length_replicate, Nat.min_eq_right h.covers]

/-! ## The loop of `decryptBytes` -/

section
variable {dec : Open} {key cipher : Bytes}

/-- Chunk `i` of a ciphertext, where the manifest puts it. -/
def chunkAt (m : FileManifest) (cipher : Bytes) (i : Nat) : Bytes := cipher.slice (cipherLen m i) (cipherLen m (i + 1))

theorem length_chunkAt {i : Nat} (hlen : cipher.length = cipherLen m m.chunks) (hi : i < m.chunks) :
    (chunkAt m cipher i).length = chunkCipherLen m i := by
  rw [chunkAt, Bytes.length_slice _ (cipherLen_mono m (Nat.le_succ i)) (hlen ▸ cipherLen_mono m hi), cipherLen_succ,
    Nat.add_sub_cancel_left]

/-- The chunks `ps` so far, and nothing after them. -/
def Reading.of (m : FileManifest) (n : Nat) (ps : Bytes) : Reading :=
  ⟨ps ++ List.replicate (m.size - ps.length) 0, cipherLen m n, ps.length⟩

theorem setAt_ok {ps pt : Bytes} {size : Nat} (hle : ps.length + pt.length ≤ size) :
    setAt (ps ++ List.replicate (size - ps.length) 0) pt ps.length =
      .ok (ps ++ pt ++ List.replicate (size - (ps ++ pt).length) 0) := by
  have hfit : ¬(ps ++ List.replicate (size - ps.length) (0 : UInt8)).length < ps.length + pt.length := by
    rw [List.length_append, List.length_replicate]
    omega
  rw [setAt, refuse, if_neg hfit]
  simp only [bind, Except.bind, pure, Except.pure, List.take_left, List.drop_append, List.drop_replicate,
    List.length_append]
  rw [List.drop_of_length_le (Nat.le_add_right ..), List.nil_append]
  congr 3
  omega

theorem setAt_fits {out pt out' : Bytes} {offset : Nat} (h : setAt out pt offset = .ok out') :
    offset + pt.length ≤ out.length := by
  simp only [setAt, bind_ok, exists_unit, refuse_ok] at h
  exact Nat.not_lt.mp h.1

/-- The first chunks, opened one after another. -/
def opened (dec : Open) (key : Bytes) (m : FileManifest) (cipher : Bytes) (n : Nat) : Except String (List Bytes) :=
  (List.range n).mapM fun i => decryptChunk dec key m i (chunkAt m cipher i)

theorem opened_succ {n : Nat} {ps : List Bytes} :
    opened dec key m cipher (n + 1) = .ok ps ↔ ∃ qs p, opened dec key m cipher n = .ok qs ∧
      decryptChunk dec key m n (chunkAt m cipher n) = .ok p ∧ ps = qs ++ [p] := by
  simp only [opened, List.range_succ, List.mapM_append, List.mapM_cons, List.mapM_nil, bind_ok, pure, Except.pure,
    Except.ok.injEq]
  constructor
  · rintro ⟨qs, hqs, _, ⟨p, hp, _, rfl, rfl⟩, rfl⟩
    exact ⟨qs, p, hqs, hp, rfl⟩
  · rintro ⟨qs, p, hqs, hp, rfl⟩
    exact ⟨qs, hqs, _, ⟨p, hp, _, rfl, rfl⟩, rfl⟩

/-- The loop has come past its first chunks exactly if they open and fit the file. -/
theorem rounds_ok {n : Nat} {r : Reading} :
    (List.range n).foldlM (decryptRound dec key m cipher) ⟨List.replicate m.size 0, 0, 0⟩ = .ok r ↔
      ∃ ps, opened dec key m cipher n = .ok ps ∧ ps.flatten.length ≤ m.size ∧ r = .of m n ps.flatten := by
  induction n generalizing r with
  | zero => simp [opened, Reading.of, cipherLen, pure, Except.pure, eq_comm]
  | succ n ih =>
      rw [List.range_succ, List.foldlM_append]
      simp only [List.foldlM_cons, List.foldlM_nil, bind_ok, bind_pure]
      constructor
      · rintro ⟨r₀, hr₀, hround⟩
        obtain ⟨qs, hopen, hfit, rfl⟩ := ih.mp hr₀
        simp only [decryptRound, bind_ok] at hround
        obtain ⟨p, hp, out, hset, hr⟩ := hround
        have hle : qs.flatten.length + p.length ≤ m.size := by
          have := setAt_fits hset
          simp only [Reading.of, List.length_append, List.length_replicate] at this
          omega
        refine ⟨qs ++ [p], opened_succ.mpr ⟨qs, p, hopen, ?_, rfl⟩, by simpa using hle, ?_⟩
        · rw [← hp, chunkAt, cipherLen_succ]
          rfl
        · obtain rfl := Except.ok.inj ((setAt_ok hle).symm.trans hset)
          obtain rfl := Except.ok.inj hr
          simp [Reading.of, cipherLen_succ]
      · rintro ⟨ps, hopen, hfit, rfl⟩
        obtain ⟨qs, p, hqs, hp, rfl⟩ := opened_succ.mp hopen
        have hle : qs.flatten.length + p.length ≤ m.size := by simpa using hfit
        refine ⟨.of m n qs.flatten, ih.mpr ⟨qs, hqs, by omega, rfl⟩, ?_⟩
        simp only [decryptRound, bind_ok]
        refine ⟨p, ?_, _, setAt_ok hle, ?_⟩
        · rw [← hp, chunkAt, cipherLen_succ]
          rfl
        · simp [Reading.of, cipherLen_succ, pure, Except.pure]

end

/-- What the loop gives back. -/
theorem decryptBytes_ok {dec : Open} {key cipher out : Bytes} :
    decryptBytes dec key m cipher = .ok out ↔ m.alg = FILE_ALG ∧ cipher.length = cipherLen m m.chunks ∧
      ∃ ps, opened dec key m cipher m.chunks = .ok ps ∧ ps.flatten.length ≤ m.size ∧
        out = ps.flatten ++ List.replicate (m.size - ps.flatten.length) 0 := by
  simp only [decryptBytes, bind_ok, exists_unit, refuse_ok, not_not, rounds_ok]
  constructor
  · rintro ⟨halg, hlen, _, ⟨ps, hps, hfit, rfl⟩, hout⟩
    exact ⟨halg, hlen, ps, hps, hfit, (Except.ok.inj hout).symm⟩
  · rintro ⟨halg, hlen, ps, hps, hfit, rfl⟩
    exact ⟨halg, hlen, _, ⟨ps, hps, hfit, rfl⟩, rfl⟩

theorem decryptChunk_ok {dec : Open} {key ct p : Bytes} {i : Nat} :
    decryptChunk dec key m i ct = .ok p ↔ i < m.chunks ∧ key.length = 32 ∧
      dec key (nonce i) (aad i m.chunks) ct = some p := by
  simp only [decryptChunk, inRange, importKey, bind_ok, exists_unit, refuse_ok, elim_ok, not_le, not_not]

/-! ## A file and its chunks -/

section
variable (G : Gcm) (key plain : Bytes)

/-- Chunk `i` of a file, as it is sealed. -/
def sealing (m : FileManifest) (i : Nat) : Box Bytes Bytes where
  key := key
  nonce := nonce i
  aad := aad i m.chunks
  ct := G.encrypt key (nonce i) (aad i m.chunks) (piece plain m.chunk i)
  pt := piece plain m.chunk i

/-- The ciphertext of a file. -/
def sealed (m : FileManifest) : Bytes := ((List.range m.chunks).map fun i => (sealing G key plain m i).ct).flatten

variable {G key plain}

theorem encryptBytes_ok (hkey : key.length = 32) {chunk : Nat} (hm : planChunks plain.length chunk = .ok m) :
    encryptBytes G key plain chunk = .ok (m, sealed G key plain m) := by
  have hchunk : ∀ i ∈ List.range m.chunks, encryptChunk G key m i (piece plain m.chunk i) =
      .ok (sealing G key plain m i).ct := by
    intro i hi
    have hlt := List.mem_range.mp hi
    simp only [encryptChunk, inRange, importKey, bind_ok, exists_unit, refuse_ok, not_le, not_not]
    exact ⟨hlt, hkey, rfl⟩
  have hparts : (List.range m.chunks).mapM (fun i => encryptChunk G key m i (piece plain m.chunk i)) =
      .ok ((List.range m.chunks).map fun i => (sealing G key plain m i).ct) := mapM_ok hchunk
  simp only [encryptBytes, bind_ok]
  exact ⟨m, hm, _, hparts, rfl⟩

theorem FileManifest.Sound.length_sealing (h : m.Sound) (hsize : plain.length = m.size) {i : Nat} (hi : i < m.chunks) :
    (sealing G key plain m i).ct.length = chunkCipherLen m i := by
  rw [sealing, G.length_encrypt, h.length_piece hsize hi]

/-- The first chunks of the ciphertext end where the manifest says. -/
theorem FileManifest.Sound.length_sealed (h : m.Sound) (hsize : plain.length = m.size) {n : Nat} (hn : n ≤ m.chunks) :
    ((List.range n).map fun i => (sealing G key plain m i).ct).flatten.length = cipherLen m n := by
  rw [List.length_flatten, List.map_map, cipherLen]
  congr 1
  exact List.map_congr_left fun i hi => h.length_sealing hsize ((List.mem_range.mp hi).trans_le hn)

/-- The manifest finds every chunk where it was put. -/
theorem FileManifest.Sound.chunkAt_sealed (h : m.Sound) (hsize : plain.length = m.size) {i : Nat} (hi : i < m.chunks) :
    chunkAt m (sealed G key plain m) i = (sealing G key plain m i).ct := by
  have hsplit : List.range m.chunks = List.range i ++ i :: (List.range (m.chunks - (i + 1))).map (i + 1 + ·) := by
    have hsum : m.chunks = i + 1 + (m.chunks - (i + 1)) := by omega
    conv_lhs => rw [hsum, List.range_add, List.range_succ]
    simp
  have hlen : (sealing G key plain m i).ct.length = chunkCipherLen m i := h.length_sealing hsize hi
  rw [sealed, hsplit, List.map_append, List.map_cons, List.flatten_append, List.flatten_cons, chunkAt,
    cipherLen_succ]
  exact Bytes.slice_mid _ _ _ (h.length_sealed hsize hi.le) (by rw [hlen])

/-- The pieces of a file are the file. -/
theorem FileManifest.Sound.flatten_pieces (h : m.Sound) (hsize : plain.length = m.size) :
    ((List.range m.chunks).map (piece plain m.chunk)).flatten = plain := by
  rw [File.flatten_pieces, List.take_of_length_le (hsize ▸ h.covers)]

theorem FileManifest.Sound.decryptBytes_sealed (h : m.Sound) (hsize : plain.length = m.size) (hkey : key.length = 32) :
    decryptBytes G.decrypt key m (sealed G key plain m) = .ok plain := by
  have hopened : opened G.decrypt key m (sealed G key plain m) m.chunks =
      .ok ((List.range m.chunks).map (piece plain m.chunk)) := by
    refine mapM_ok fun i hi => ?_
    have hlt := List.mem_range.mp hi
    rw [h.chunkAt_sealed hsize hlt, decryptChunk_ok]
    exact ⟨hlt, hkey, G.decrypt_encrypt ..⟩
  have hflat := h.flatten_pieces hsize
  refine decryptBytes_ok.mpr ⟨h.alg, h.length_sealed hsize le_rfl, _, hopened, ?_, ?_⟩
  · rw [hflat, hsize]
  · rw [hflat, hsize, Nat.sub_self, List.replicate_zero, List.append_nil]

theorem nonce_inj {i j : Nat} (hi : i < 2 ^ 32) (hj : j < 2 ^ 32) (h : nonce i = nonce j) : i = j := by
  have h8 : Bytes.toNat (Bytes.ofNat 8 i) = Bytes.toNat (Bytes.ofNat 8 j) :=
    congrArg Bytes.toNat (List.append_cancel_left h)
  rw [Bytes.toNat_ofNat, Bytes.toNat_ofNat] at h8
  omega

theorem aad_inj {i j n k : Nat} (hn : n < 2 ^ 32) (hk : k < 2 ^ 32) (h : aad i n = aad j k) : n = k := by
  have htail := (List.append_inj h (by rw [Bytes.length_u32be, Bytes.length_u32be])).2
  have := Bytes.u32be_inj htail
  omega

/-- What opens under the file's key, where nothing else was sealed under it, is the file's chunk at that place. -/
theorem opens_own {m m' : FileManifest} (h : m.Sound) (h' : m'.Sound) {log : List (Box Bytes Bytes)}
    (hlog : ∀ b ∈ log, b.key = key → ∃ i < m.chunks, b = sealing G key plain m i) {i : Nat} {ct p : Bytes}
    (hopen : decryptChunk (Box.openIn log) key m' i ct = .ok p) :
    m'.chunks = m.chunks ∧ ct = (sealing G key plain m i).ct ∧ p = piece plain m.chunk i := by
  obtain ⟨hi, -, hopen⟩ := decryptChunk_ok.mp hopen
  obtain ⟨b, hb, ⟨hkey, hnonce, haad, hct⟩, hpt⟩ := Box.openIn_eq_some hopen
  obtain ⟨j, hj, rfl⟩ := hlog b hb hkey
  obtain rfl : j = i := nonce_inj (hj.trans h.chunks_lt) (hi.trans h'.chunks_lt) hnonce
  exact ⟨(aad_inj h.chunks_lt h'.chunks_lt haad).symm, hct.symm, hpt.symm⟩

/-- Whatever the ciphertext and the manifest have become, the file comes back or nothing. -/
theorem decryptBytes_own {m m' : FileManifest} (h : m.Sound) (hsize : plain.length = m.size) (h' : m'.Sound)
    {log : List (Box Bytes Bytes)} (hlog : ∀ b ∈ log, b.key = key → ∃ i < m.chunks, b = sealing G key plain m i)
    {cipher out : Bytes} (hout : decryptBytes (Box.openIn log) key m' cipher = .ok out) : out = plain := by
  obtain ⟨-, hlen, ps, hps, hfit, rfl⟩ := decryptBytes_ok.mp hout
  have hown : ∀ i < m'.chunks, ∃ p, decryptChunk (Box.openIn log) key m' i (chunkAt m' cipher i) = .ok p := by
    intro i hi
    exact exists_of_mapM hps i (List.mem_range.mpr hi)
  have hchunks : m'.chunks = m.chunks := by
    obtain ⟨p, hp⟩ := hown 0 h'.chunks_pos
    exact (opens_own h h' hlog hp).1
  have hflat : ps.flatten = plain := by
    rw [eq_map_of_mapM hps fun i _ p hp => (opens_own h h' hlog hp).2.2, hchunks, h.flatten_pieces hsize]
  have hct : ∀ i < m.chunks, chunkCipherLen m' i = chunkCipherLen m i := by
    intro i hi
    obtain ⟨p, hp⟩ := hown i (hchunks ▸ hi)
    have hcut : (sealing G key plain m i).ct.length = chunkCipherLen m i := h.length_sealing hsize hi
    rw [← hcut, ← (opens_own h h' hlog hp).2.1, length_chunkAt hlen (hchunks ▸ hi)]
  have hsame : m'.size = m.size := by
    have hall := h'.cipherLen_all
    rw [hchunks] at hall
    have : cipherLen m' m.chunks = cipherLen m m.chunks := by
      rw [cipherLen, cipherLen, List.map_congr_left fun i hi => hct i (List.mem_range.mp hi)]
    rw [this, h.cipherLen_all] at hall
    omega
  rw [hflat, hsize, hsame, Nat.sub_self, List.replicate_zero, List.append_nil]

end

/-- A file comes back as it was. Where its key sealed nothing else, a changed ciphertext, under its manifest or any
that a receiver takes, gives the file or nothing. -/
theorem returns_the_file (G : Gcm) {key plain : Bytes} {chunk : Nat} (hkey : key.length = 32)
    (hsize : plain.length ≤ MAX_FILE) (hpos : 0 < chunk) (hchunk : chunk ≤ MAX_CHUNK) :
    ∃ m cipher, encryptBytes G key plain chunk = .ok (m, cipher) ∧ decryptBytes G.decrypt key m cipher = .ok plain ∧
      ∀ log : List (Box Bytes Bytes), (∀ b ∈ log, b.key = key → ∃ i < m.chunks, b = sealing G key plain m i) →
        ∀ m' cipher' out, m' = m ∨ (∃ env, decodeFile env = some m') →
          decryptBytes (Box.openIn log) key m' cipher' = .ok out → out = plain := by
  have hplan := planChunks_ok hsize hpos hchunk
  obtain ⟨h, hlen, -⟩ := planChunks_sound hplan
  refine ⟨_, _, encryptBytes_ok hkey hplan, h.decryptBytes_sealed hlen.symm hkey, ?_⟩
  intro log hlog m' cipher' out hm' hout
  refine decryptBytes_own h hlen.symm ?_ hlog hout
  rcases hm' with rfl | ⟨env, henv⟩
  · exact h
  · exact decodeFile_sound henv

/-- A cipher that only adds room for a tag. -/
def clear : Gcm where
  encrypt _ _ _ plain := plain ++ List.replicate TAG 0
  decrypt _ _ _ ct := some (ct.take (ct.length - TAG))
  length_encrypt := by simp
  decrypt_encrypt := by simp

theorem sample_returned :
    ∃ m cipher, encryptBytes clear (List.replicate 32 7) [1, 2, 3] 2 = .ok (m, cipher) ∧
      decryptBytes clear.decrypt (List.replicate 32 7) m cipher = .ok [1, 2, 3] ∧
      ∀ log : List (Box Bytes Bytes),
        (∀ b ∈ log, b.key = List.replicate 32 7 → ∃ i < m.chunks, b = sealing clear (List.replicate 32 7) [1, 2, 3] m i) →
        ∀ m' cipher' out, m' = m ∨ (∃ env, decodeFile env = some m') →
          decryptBytes (Box.openIn log) (List.replicate 32 7) m' cipher' = .ok out → out = [1, 2, 3] :=
  returns_the_file clear (by decide) (by decide) (by decide) (by decide)

end EncedoChat.File
