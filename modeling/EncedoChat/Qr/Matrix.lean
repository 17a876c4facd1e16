import EncedoChat.Lib.Bits
import EncedoChat.Lib.Bytes
import EncedoChat.Qr.Field
import EncedoChat.Lib.Writes
import Mathlib.Data.Int.Bitwise

/-!
# The codewords of a QR symbol

`lib/qr.ts` up to the drawing: the version, the bit stream, the blocks and their interleaving. Byte mode, level L,
versions 1 to 20.
-/

namespace EncedoChat.Qr

structure VersionSpec where
  data : Nat
  ec : Nat
  groups : List (Nat × Nat)
  align : List Nat
  remainder : Nat
  deriving Inhabited

/-- Level L. -/
def VERSIONS : List VersionSpec := [
  ⟨19, 7, [(1, 19)], [], 0⟩,
  ⟨34, 10, [(1, 34)], [6, 18], 7⟩,
  ⟨55, 15, [(1, 55)], [6, 22], 7⟩,
  ⟨80, 20, [(1, 80)], [6, 26], 7⟩,
  ⟨108, 26, [(1, 108)], [6, 30], 7⟩,
  ⟨136, 18, [(2, 68)], [6, 34], 7⟩,
  ⟨156, 20, [(2, 78)], [6, 22, 38], 0⟩,
  ⟨194, 24, [(2, 97)], [6, 24, 42], 0⟩,
  ⟨232, 30, [(2, 116)], [6, 26, 46], 0⟩,
  ⟨274, 18, [(2, 68), (2, 69)], [6, 28, 50], 0⟩,
  ⟨324, 20, [(4, 81)], [6, 30, 54], 0⟩,
  ⟨370, 24, [(2, 92), (2, 93)], [6, 32, 58], 0⟩,
  ⟨428, 26, [(4, 107)], [6, 34, 62], 0⟩,
  ⟨461, 30, [(3, 115), (1, 116)], [6, 26, 46, 66], 3⟩,
  ⟨523, 22, [(5, 87), (1, 88)], [6, 26, 48, 70], 3⟩,
  ⟨589, 24, [(5, 98), (1, 99)], [6, 26, 50, 74], 3⟩,
  ⟨647, 28, [(1, 107), (5, 108)], [6, 30, 54, 78], 3⟩,
  ⟨721, 30, [(5, 120), (1, 121)], [6, 30, 56, 82], 3⟩,
  ⟨795, 28, [(3, 113), (4, 114)], [6, 30, 58, 86], 3⟩,
  ⟨861, 28, [(3, 107), (5, 108)], [6, 34, 62, 90], 3⟩]

/-- `VERSIONS[version - 1]` -/
def spec (version : Nat) : VersionSpec := VERSIONS.getD (version - 1) default

def countBits (version : Nat) : Nat := if version < 10 then 8 else 16

/-- The smallest version that holds `len` bytes, or 0 when nothing here does. -/
def pickVersion (len : Nat) : Nat :=
  (((List.range VERSIONS.length).map (· + 1)).find? fun v => 4 + countBits v + len * 8 ≤ (spec v).data * 8).getD 0

/-- Mode, length, payload, terminator, and up to a whole byte. -/
def bitStream (version : Nat) (data : Bytes) : List Nat :=
  let bits := pushBits 0b0100 4 ++ pushBits data.length (countBits version)
    ++ data.flatMap fun b => pushBits b.toNat 8
  let capacity := (spec version).data * 8
  let bits := bits ++ pushBits 0 (min 4 (capacity - bits.length))
  bits ++ List.replicate ((8 - bits.length % 8) % 8) 0

def padding (n : Nat) : List Nat := (List.range n).map fun pad => if pad % 2 = 0 then 0xec else 0x11

def codewords (version : Nat) (data : Bytes) : List Nat :=
  let codewords := toBytes (bitStream version data)
  codewords ++ padding ((spec version).data - codewords.length)

/-- The sizes of the blocks, group by group. -/
def blockSizes (version : Nat) : List Nat := (spec version).groups.flatMap fun g => List.replicate g.1 g.2

/-- One slice after another. -/
def cut : List Nat → List Nat → List (List Nat)
  | [], _ => []
  | size :: sizes, l => l.take size :: cut sizes (l.drop size)

def dataBlocks (version : Nat) (data : Bytes) : List (List Nat) := cut (blockSizes version) (codewords version data)

def ecBlocks (version : Nat) (data : Bytes) : List (List Nat) :=
  (dataBlocks version data).map (ecBlock · (spec version).ec)

/-- The first codewords of the blocks that have one, then the second ones, up to the `n`th. -/
def interleave (n : Nat) (blocks : List (List Nat)) : List Nat :=
  (List.range n).flatMap fun i => blocks.filterMap (·[i]?)

def widest (blocks : List (List Nat)) : Nat := (blocks.map List.length).foldl max 0

def stream (version : Nat) (data : Bytes) : List Nat :=
  interleave (widest (dataBlocks version data)) (dataBlocks version data)
    ++ interleave (spec version).ec (ecBlocks version data)

def finalBits (version : Nat) (data : Bytes) : List Nat :=
  (stream version data).flatMap (pushBits · 8) ++ List.replicate (spec version).remainder 0

end EncedoChat.Qr

/-!
# The modules of a QR symbol

`lib/qr.ts` from the function patterns to `qrMatrix`. A grid is what its modules hold, by row and column: 1 is dark,
0 is light, and -1 is free.
-/

namespace EncedoChat.Qr

abbrev Grid := Nat × Nat → Int

def size (version : Nat) : Nat := version * 4 + 17

def newGrid : Grid := fun _ => -1

/-- `n` numbers from `lo` on. -/
def steps (lo : Int) (n : Nat) : List Int := (List.range n).map fun (i : Nat) => lo + i

def inner (r c : Int) : Bool :=
  0 ≤ r ∧ r ≤ 6 ∧ 0 ≤ c ∧ c ≤ 6 ∧ (r = 0 ∨ r = 6 ∨ c = 0 ∨ c = 6 ∨ (2 ≤ r ∧ r ≤ 4 ∧ 2 ≤ c ∧ c ≤ 4))

def placeFinder (size row col : Nat) : List ((Nat × Nat) × Int) :=
  (steps (-1) 9).flatMap fun (r : Int) => (steps (-1) 9).filterMap fun (c : Int) =>
    let rr : Int := row + r
    let cc : Int := col + c
    if rr < 0 ∨ cc < 0 ∨ size ≤ rr ∨ size ≤ cc then none
    else some ((rr.toNat, cc.toNat), if inner r c then 1 else 0)

/-- Every pair of centres except the three that collide with finders. -/
def alignments (version : Nat) : List (Nat × Nat) :=
  let centres := (spec version).align
  (centres.flatMap fun r => centres.map fun c => (r, c)).filter fun p =>
    ¬ ((p.1 = 6 ∧ p.2 = 6) ∨ (p.1 = 6 ∧ p.2 = size version - 7) ∨ (p.1 = size version - 7 ∧ p.2 = 6))

def alignment (p : Nat × Nat) : List ((Nat × Nat) × Int) :=
  (steps (-2) 5).flatMap fun (dr : Int) => (steps (-2) 5).map fun (dc : Int) =>
    (((p.1 + dr).toNat, (p.2 + dc).toNat), if max dr.natAbs dc.natAbs = 1 then 0 else 1)

/-- `8 <= i < size - 8` -/
def timing (version : Nat) : List Nat := List.range' 8 (size version - 16)

/-- The grid of `functionPatterns`. -/
def patterns (version : Nat) : Grid :=
  let size := size version
  writeAll newGrid
    (placeFinder size 0 0 ++ placeFinder size 0 (size - 7) ++ placeFinder size (size - 7) 0
    ++ (timing version).flatMap (fun i =>
      let v := if i % 2 = 0 then 1 else 0
      [((6, i), v), ((i, 6), v)])
    ++ (alignments version).flatMap alignment
    ++ [((size - 8, 8), 1)])

/-- What `functionPatterns` reserves. -/
def marks (version : Nat) : List (Nat × Nat) :=
  let size := size version
  [(0, 0), (0, size - 8), (size - 8, 0)].flatMap (fun p =>
    (List.range 8).flatMap fun r => (List.range 8).map fun c => (p.1 + r, p.2 + c))
  ++ (timing version).flatMap (fun i => [(6, i), (i, 6)])
  ++ (alignments version).flatMap (fun p => (alignment p).map Prod.fst)
  ++ [(size - 8, 8)]
  ++ (List.range 9).flatMap (fun i => [(8, i), (i, 8)])
  ++ (List.range 8).flatMap (fun i => [(8, size - 1 - i), (size - 1 - i, 8)])
  ++ if 7 ≤ version then
      (List.range 6).flatMap fun i => (List.range 3).flatMap fun j => [(i, size - 11 + j), (size - 11 + j, i)]
    else []

def reserved (version : Nat) (p : Nat × Nat) : Bool := p ∈ marks version

/-- The right columns of the pairs, from `right` on. -/
def rights : Nat → Nat → List Nat
  | 0, _ => []
  | fuel + 1, right =>
    if right < 1 then []
    else
      -- the vertical timing pattern is not a data column
      let right := if right = 6 then 5 else right
      right :: rights fuel (right - 2)

def column (size : Nat) (upward : Bool) (right : Nat) : List (Nat × Nat) :=
  (List.range size).flatMap fun step =>
    let row := if upward then size - 1 - step else step
    [(row, right), (row, right - 1)]

def columns (size : Nat) : Bool → List Nat → List (Nat × Nat)
  | _, [] => []
  | upward, right :: rest => column size upward right ++ columns size (!upward) rest

/-- The modules for data, in the order they are filled in. -/
def dataModules (version : Nat) : List (Nat × Nat) :=
  let size := size version
  (columns size true (rights size (size - 1))).filter fun p => ¬ reserved version p

def placeData (version : Nat) (grid : Grid) (bits : List Nat) : Grid :=
  writeAll grid ((dataModules version).zipIdx.map fun pi => (pi.1, (bits.getD pi.2 0 : Int)))

def MASKS : List (Nat → Nat → Bool) := [
  fun r c => (r + c) % 2 = 0,
  fun r _ => r % 2 = 0,
  fun _ c => c % 3 = 0,
  fun r c => (r + c) % 3 = 0,
  fun r c => (r / 2 + c / 3) % 2 = 0,
  fun r c => (r * c) % 2 + (r * c) % 3 = 0,
  fun r c => ((r * c) % 2 + (r * c) % 3) % 2 = 0,
  fun r c => ((r + c) % 2 + (r * c) % 3) % 2 = 0]

/-! ## The penalty -/

/-- Runs of one colour along a line. -/
def lineScore (n : Nat) (get : Nat → Int) : Nat :=
  let end' := (List.range (n - 1)).foldl (fun s j =>
    if get (j + 1) = get j then (s.1 + 1, s.2)
    else (1, if 5 ≤ s.1 then s.2 + (s.1 - 2) else s.2)) (1, 0)
  if 5 ≤ end'.1 then end'.2 + (end'.1 - 2) else end'.2

def boxScore (n : Nat) (g : Grid) : Nat :=
  ((List.range (n - 1)).map fun r => ((List.range (n - 1)).map fun c =>
    let v := g (r, c)
    if v = g (r, c + 1) ∧ v = g (r + 1, c) ∧ v = g (r + 1, c + 1) then 3 else 0).sum).sum

def FINDER_THEN_LIGHT : List Int := [1, 0, 1, 1, 1, 0, 1, 0, 0, 0, 0]

def LIGHT_THEN_FINDER : List Int := [0, 0, 0, 0, 1, 0, 1, 1, 1, 0, 1]

/-- The ratio of a finder, in a line padded with light. -/
def scanLine (line : List Int) : Nat :=
  let padded := [0, 0, 0, 0] ++ line ++ [0, 0, 0, 0]
  ((List.range (padded.length - 10)).map fun j =>
    let window := (padded.drop j).take 11
    (if window = FINDER_THEN_LIGHT then 40 else 0) + if window = LIGHT_THEN_FINDER then 40 else 0).sum

/-- `Math.floor(Math.abs(ratio - 50) / 5) * 10`, without the quotients. -/
def darkScore (n : Nat) (g : Grid) : Nat :=
  let dark := ((List.range n).map fun r => ((List.range n).map fun c => g (r, c)).sum).sum
  (dark * 100 - 50 * (n * n)).natAbs / (5 * (n * n)) * 10

def penalty (n : Nat) (g : Grid) : Nat :=
  ((List.range n).map fun i => lineScore n fun j => g (i, j)).sum
  + ((List.range n).map fun i => lineScore n fun j => g (j, i)).sum
  + boxScore n g
  + ((List.range n).map fun i =>
      scanLine ((List.range n).map fun k => g (i, k)) + scanLine ((List.range n).map fun k => g (k, i))).sum
  + darkScore n g

/-! ## Format and version -/

/-- One turn of a division by a generator of degree `degree`. -/
def divideBit (poly degree rem i : Nat) : Nat :=
  if (rem >>> (i + degree)) &&& 1 ≠ 0 then rem ^^^ poly <<< i else rem

/-- BCH(15,5), level L = 01. -/
def formatBits (mask : Nat) : Nat :=
  let data := 0b01 <<< 3 ||| mask
  let rem := [4, 3, 2, 1, 0].foldl (divideBit 0b10100110111 10) (data <<< 10)
  (data <<< 10 ||| rem) ^^^ 0b101010000010010

/-- BCH(18,6) -/
def versionBits (version : Nat) : Nat :=
  let rem := [5, 4, 3, 2, 1, 0].foldl (divideBit 0b1111100100101 12) (version <<< 12)
  version <<< 12 ||| rem

def bit (bits i : Nat) : Int := ((bits >>> i) &&& 1 : Nat)

/-- Where the bits of the format are, twice. -/
def formatModules (size : Nat) : List ((Nat × Nat) × Nat) :=
  (List.range' 0 6).map (fun i => ((i, 8), i)) ++ [((7, 8), 6), ((8, 8), 7), ((8, 7), 8)]
  ++ (List.range' 9 6).map (fun i => ((8, 14 - i), i))
  ++ (List.range' 0 8).map (fun i => ((8, size - 1 - i), i))
  ++ (List.range' 8 7).map fun i => ((size - 15 + i, 8), i)

def writeFormat (size : Nat) (g : Grid) (mask : Nat) : Grid :=
  writeAll g (((formatModules size).map fun pi => (pi.1, bit (formatBits mask) pi.2)) ++ [((size - 8, 8), 1)])

/-- Where the bits of the version are, twice. -/
def versionModules (size : Nat) : List ((Nat × Nat) × Nat) :=
  (List.range 18).flatMap fun i =>
    let r := i / 3
    let c := i % 3
    [((r, size - 11 + c), i), ((size - 11 + c, r), i)]

def writeVersion (size : Nat) (g : Grid) (version : Nat) : Grid :=
  writeAll g ((versionModules size).map fun pi => (pi.1, bit (versionBits version) pi.2))

/-! ## The matrix -/

def applyMask (version : Nat) (fn : Nat → Nat → Bool) (g : Grid) : Grid := fun p =>
  if p.1 < size version ∧ p.2 < size version ∧ ¬ reserved version p ∧ fn p.1 p.2 then (g p).xor 1 else g p

/-- The grid of one turn of the loop over the masks. -/
def drawn (version : Nat) (bits : List Nat) (mask : Nat) (fn : Nat → Nat → Bool) : Grid :=
  let grid := placeData version (patterns version) bits
  let grid := applyMask version fn grid
  let grid := writeFormat (size version) grid mask
  if 7 ≤ version then writeVersion (size version) grid version else grid

/-- A turn of the loop, with the best grid so far and its score. -/
def turn (version : Nat) (bits : List Nat) (best : Option (Grid × Nat)) (mask : Nat) :
    Except String (Option (Grid × Nat)) :=
  match MASKS[mask]? with
  | none => .error "fn is not a function"
  | some fn =>
    let grid := drawn version bits mask fn
    let score := penalty (size version) grid
    match best with
    | none => .ok (some (grid, score))
    | some b => .ok (if score < b.2 then some (grid, score) else best)

/-- The rows of a grid, 1 is dark. -/
def matrix (n : Nat) (g : Grid) : List (List Nat) :=
  (List.range n).map fun r => (List.range n).map fun c => if g (r, c) = 1 then 1 else 0

/-- `qrMatrix` of a text that is these bytes. -/
def qrMatrix (data : Bytes) (forceMask : Option Nat) : Except String (List (List Nat)) :=
  let version := pickVersion data.length
  if version = 0 then .error s!"QR: {data.length} bytes is more than this encoder holds (max 858)"
  else do
    let masks := match forceMask with
      | none => List.range 8
      | some mask => [mask]
    let best ← masks.foldlM (turn version (finalBits version data)) none
    match best with
    | none => .error "best is null"
    | some b => .ok (matrix (size version) b.1)

end EncedoChat.Qr
