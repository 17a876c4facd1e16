import EncedoChat.Qr.Matrix

/-!
# How a QR symbol is read

The reading procedure of the standard, for level L in byte mode. It shares the published tables with the encoder, and
the field; where modules lie and in which order they are read is said anew, by coordinates.
-/

namespace EncedoChat.Qr.Standard

/-- A version with a table entry. -/
def Known (version : Nat) : Prop := 1 ≤ version ∧ version < 21

instance : DecidablePred Known := fun _ => inferInstanceAs (Decidable (_ ∧ _))

/-- Finders with the format around them, timing, alignment and version: these hold no data. -/
def Fixed (version r c : Nat) : Prop :=
  let n := size version
  r ≤ 8 ∧ c ≤ 8 ∨ r ≤ 8 ∧ n - 8 ≤ c ∨ n - 8 ≤ r ∧ c ≤ 8 ∨ r = 6 ∨ c = 6 ∨
    (∃ p ∈ alignments version, (p.1 ≤ r + 2 ∧ r ≤ p.1 + 2) ∧ p.2 ≤ c + 2 ∧ c ≤ p.2 + 2) ∨
    7 ≤ version ∧ (r < 6 ∧ n - 11 ≤ c ∧ c < n - 8 ∨ c < 6 ∧ n - 11 ≤ r ∧ r < n - 8)

instance (version r c : Nat) : Decidable (Fixed version r c) := by
  unfold Fixed
  infer_instance

/-- The right one of the `k`th pair of columns, counted from the right; the timing column is in none. -/
def rightOf (version k : Nat) : Nat :=
  let right := size version - 1 - 2 * k
  if 6 < right then right else right - 1

/-- Pairs of columns from right to left, up and down in turn. -/
def order (version : Nat) : List (Nat × Nat) :=
  let n := size version
  ((List.range ((n - 1) / 2)).flatMap fun k => (List.range n).flatMap fun i =>
    let r := if k % 2 = 0 then n - 1 - i else i
    [(r, rightOf version k), (r, rightOf version k - 1)]).filter fun p => ¬ Fixed version p.1 p.2

/-- Where a mask inverts. -/
def maskOn (mask r c : Nat) : Bool :=
  match mask with
  | 0 => (r + c) % 2 = 0
  | 1 => r % 2 = 0
  | 2 => c % 3 = 0
  | 3 => (r + c) % 3 = 0
  | 4 => (r / 2 + c / 3) % 2 = 0
  | 5 => r * c % 2 + r * c % 3 = 0
  | 6 => (r * c % 2 + r * c % 3) % 2 = 0
  | _ => ((r + c) % 2 + r * c % 3) % 2 = 0

/-- The module of a bit of the format: around the first finder. -/
def formatPlace (i : Nat) : Nat × Nat :=
  if i < 6 then (i, 8) else if i < 8 then (i + 1, 8) else if i = 8 then (8, 7) else (8, 14 - i)

/-- And beside the other two. -/
def formatPlace' (version i : Nat) : Nat × Nat :=
  if i < 8 then (8, size version - 1 - i) else (size version - 15 + i, 8)

/-- The module of a bit of the version: beside the second finder, and over the third. -/
def versionPlace (version i : Nat) : Nat × Nat := (i / 3, size version - 11 + i % 3)

/-- A module of a matrix. -/
def moduleOf (m : List (List Nat)) (p : Nat × Nat) : Nat := (m.getD p.1 []).getD p.2 0

/-- A word of `n` bits, the last place is its highest bit. -/
def wordAt (m : List (List Nat)) (n : Nat) (place : Nat → Nat × Nat) : Nat :=
  ofBits ((List.range n).reverse.map fun i => moduleOf m (place i))

/-- The remainder of a word of `n + d` bits by a polynomial of degree `d`. -/
def polyMod (g d : Nat) : Nat → Nat → Nat
  | 0, w => w
  | n + 1, w => polyMod g d n (if w.testBit (n + d) then w ^^^ g <<< n else w)

/-- The BCH word of level L and a mask. -/
def FormatWord (mask w : Nat) : Prop :=
  let w := w ^^^ 0b101010000010010
  w < 2 ^ 15 ∧ polyMod 0b10100110111 10 5 w = 0 ∧ w >>> 13 = 0b01 ∧ (w >>> 10) % 8 = mask

instance (mask w : Nat) : Decidable (FormatWord mask w) := inferInstanceAs (Decidable (_ ∧ _ ∧ _ ∧ _))

/-- The BCH word of a version. -/
def VersionWord (version w : Nat) : Prop :=
  w < 2 ^ 18 ∧ polyMod 0b1111100100101 12 6 w = 0 ∧ w >>> 12 = version

instance (version w : Nat) : Decidable (VersionWord version w) := inferInstanceAs (Decidable (_ ∧ _ ∧ _))

/-- Both format areas have the word, and both version areas that of the version. -/
def Labelled (m : List (List Nat)) (version mask : Nat) : Prop :=
  FormatWord mask (wordAt m 15 formatPlace) ∧ FormatWord mask (wordAt m 15 (formatPlace' version)) ∧
    (7 ≤ version → VersionWord version (wordAt m 18 (versionPlace version)) ∧
      VersionWord version (wordAt m 18 fun i => (versionPlace version i).swap))

instance (m : List (List Nat)) (version mask : Nat) : Decidable (Labelled m version mask) :=
  inferInstanceAs (Decidable (_ ∧ _ ∧ (_ → _)))

/-- The bits in the modules for data, without the mask. -/
def unmasked (m : List (List Nat)) (version mask : Nat) : List Nat :=
  (order version).map fun p => (moduleOf m p + if maskOn mask p.1 p.2 then 1 else 0) % 2

/-- The codewords of data that the blocks hold. -/
def sizes (version : Nat) : List Nat := (spec version).groups.flatMap fun g => List.replicate g.1 g.2

def totalCodewords (version : Nat) : Nat := (sizes version).sum + (sizes version).length * (spec version).ec

/-- Which codeword of which block comes when: the first ones of all blocks, the second ones, and so on; then those of
error correction. -/
def slots (sizes : List Nat) (ec : Nat) : List (Nat × Nat) :=
  ((List.range (sizes.foldl max 0)).flatMap fun i =>
    ((List.range sizes.length).filter fun j => i < sizes.getD j 0).map fun j => (j, i))
  ++ (List.range ec).flatMap fun i => (List.range sizes.length).map fun j => (j, sizes.getD j 0 + i)

def block (sizes : List Nat) (ec : Nat) (stream : List Nat) (j : Nat) : List Nat :=
  (List.range (sizes.getD j 0 + ec)).map fun i => stream.getD ((slots sizes ec).idxOf (j, i)) 0

def blocks (version : Nat) (stream : List Nat) : List (List Nat) :=
  (List.range (sizes version).length).map (block (sizes version) (spec version).ec stream)

/-- A block is zero at the roots of the generator. -/
def Intact (ec : Nat) (block : List Nat) : Prop := ∀ k < ec, horner double^[k] block = 0

instance (ec : Nat) (block : List Nat) : Decidable (Intact ec block) := Nat.decidableBallLT _ _

/-- The codewords of data, block by block. -/
def dataOf (version : Nat) (blocks : List (List Nat)) : List Nat :=
  (blocks.map fun b => b.take (b.length - (spec version).ec)).flatten

/-- The first segment, in byte mode. -/
def readSegment (version : Nat) (bits : List Nat) : Option Bytes :=
  let count := ofBits ((bits.drop 4).take (countBits version))
  let payload := ((bits.drop (4 + countBits version)).take (8 * count))
  if ofBits (bits.take 4) = 0b0100 ∧ payload.length = 8 * count then some ((toBytes payload).map UInt8.ofNat) else none

def read (m : List (List Nat)) : Option Bytes :=
  let version := (m.length - 17) / 4
  if Known version ∧ m.length = size version ∧ ∀ row ∈ m, row.length = size version then
    let mask := ((wordAt m 15 formatPlace ^^^ 0b101010000010010) >>> 10) % 8
    if Labelled m version mask then
      let stream := toBytes ((unmasked m version mask).take (8 * totalCodewords version))
      let blocks := blocks version stream
      if ∀ b ∈ blocks, Intact (spec version).ec b then
        readSegment version ((dataOf version blocks).flatMap (pushBits · 8))
      else none
    else none
  else none

end EncedoChat.Qr.Standard
