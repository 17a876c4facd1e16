import EncedoChat.Lib.Bytes

/-!
# X25519

The function of RFC 7748: the Montgomery ladder over the u-coordinate, modulo `2 ^ 255 - 19`. WebCrypto refuses the
all-zero result. The top bit of a u-coordinate is not looked at.
-/

namespace EncedoChat.X25519

def P : Nat := 2 ^ 255 - 19

def A24 : Nat := 121665

def decodeLittleEndian (b : Bytes) : Nat := b.foldr (fun x a => x.toNat + 256 * a) 0

/-- The `k` low bytes, the lowest first. -/
def encodeLittleEndian : Nat → Nat → Bytes
  | 0, _ => []
  | k + 1, n => UInt8.ofNat n :: encodeLittleEndian k (n / 256)

def decodeUCoordinate (u : Bytes) : Nat := decodeLittleEndian u % 2 ^ 255

/-- The three low bits are cleared, the two high ones set to 01. -/
def decodeScalar (k : Bytes) : Nat := 2 ^ 254 + decodeLittleEndian k % 2 ^ 254 / 8 * 8

/-- `a ^ e` modulo `P`, for an `e` of `bits` bits. -/
def pow (a : Nat) : Nat → Nat → Nat
  | 0, _ => 1
  | bits + 1, e =>
    let h := pow a bits (e / 2)
    if e % 2 = 1 then h * h % P * a % P else h * h % P

structure Ladder where
  x₂ : Nat
  z₂ : Nat
  x₃ : Nat
  z₃ : Nat

namespace Ladder

def cswap (swap : Bool) (l : Ladder) : Ladder := if swap then ⟨l.x₃, l.z₃, l.x₂, l.z₂⟩ else l

def step (x₁ : Nat) (l : Ladder) : Ladder :=
  let A := (l.x₂ + l.z₂) % P
  let AA := A * A % P
  let B := (l.x₂ + P - l.z₂) % P
  let BB := B * B % P
  let E := (AA + P - BB) % P
  let C := (l.x₃ + l.z₃) % P
  let D := (l.x₃ + P - l.z₃) % P
  let DA := D * A % P
  let CB := C * B % P
  let sum := (DA + CB) % P
  let difference := (DA + P - CB) % P
  ⟨AA * BB % P, E * ((AA + A24 * E) % P) % P, sum * sum % P, x₁ * (difference * difference % P) % P⟩

/-- The bits of `k` below `bits`, from the highest on. -/
def climb (x₁ k : Nat) : Nat → Ladder → Ladder
  | 0, l => l
  | bits + 1, l => climb x₁ k bits (((l.cswap (k.testBit bits)).step x₁).cswap (k.testBit bits))

end Ladder

def x25519 (k u : Bytes) : Bytes :=
  let x₁ := decodeUCoordinate u
  let l := Ladder.climb x₁ (decodeScalar k) 255 ⟨1, 0, x₁, 1⟩
  encodeLittleEndian 32 (l.x₂ * pow l.z₂ 255 (P - 2) % P)

/-- `deriveBits`: raw keys of 32 bytes, and no result that is all zero. -/
def deriveBits (priv pub : Bytes) : Option Bytes :=
  if pub.length = 32 ∧ x25519 priv pub ≠ List.replicate 32 0 then some (x25519 priv pub) else none

def ofHex (n : Nat) : Bytes := Bytes.ofNat 32 n

example : x25519 (ofHex 0xa546e36bf0527c9d3b16154b82465edd62144c0ac1fc5a18506a2244ba449ac4)
    (ofHex 0xe6db6867583030db3594c1a424b15f7c726624ec26b3353b10a903a6d0ab1c4c) =
    ofHex 0xc3da55379de9c6908e94ea4df28d084f32eccf03491c71f754b4075577a28552 := by decide +kernel

/-! ## The top bit -/

/-- The key with the top bit of its last byte the other way. -/
def twin (u : Bytes) : Bytes := u.take 31 ++ (u.drop 31).map (· ^^^ 0x80)

end EncedoChat.X25519
