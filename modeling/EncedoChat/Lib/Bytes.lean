import Mathlib.Data.List.Basic
import Mathlib.Data.List.Induction
import Mathlib.Tactic.Ring

/-!
# Byte strings and big-endian numbers
-/

namespace EncedoChat

/-- A `Uint8Array`, as a value. -/
abbrev Bytes := List UInt8

instance Bytes.lawfulBEq : LawfulBEq Bytes := inferInstance

namespace Bytes

/-- `b.slice(i, j)`. -/
def slice (b : Bytes) (i j : Nat) : Bytes := (b.drop i).take (j - i)

/-- The number whose big-endian digits are `b`. -/
def toNat (b : Bytes) : Nat := b.foldl (fun a x => a * 256 + x.toNat) 0

/-- The `k` low big-endian digits of `n`: what a `DataView` setter of that width stores. -/
def ofNat : Nat → Nat → Bytes
  | 0, _ => []
  | k + 1, n => ofNat k (n / 256) ++ [UInt8.ofNat n]

/-- `setUint32(_, n, false)`. -/
def u32be (n : Nat) : Bytes := ofNat 4 n

/-- `setUint16(_, n, false)`. -/
def u16be (n : Nat) : Bytes := ofNat 2 n

/-- `getUint32(o, false)`. -/
def getU32 (b : Bytes) (o : Nat) : Nat := toNat (slice b o (o + 4))

/-- `getUint16(o, false)`. -/
def getU16 (b : Bytes) (o : Nat) : Nat := toNat (slice b o (o + 2))

/-- `setBigUint64(_, BigInt(n), false)`. -/
def u64be (n : Nat) : Bytes := ofNat 8 n

/-- `getBigUint64(o, false)`. -/
def getU64 (b : Bytes) (o : Nat) : Nat := toNat (slice b o (o + 8))

@[simp] theorem length_ofNat (k n : Nat) : (ofNat k n).length = k := by
  induction k generalizing n with
  | zero => rfl
  | succ k ih => simp [ofNat, ih]

@[simp] theorem length_u32be (n : Nat) : (u32be n).length = 4 := length_ofNat 4 n

@[simp] theorem length_u16be (n : Nat) : (u16be n).length = 2 := length_ofNat 2 n

theorem toNat_snoc (b : Bytes) (x : UInt8) : toNat (b ++ [x]) = toNat b * 256 + x.toNat := by
  simp [toNat]

/-- Reading back the `k` digits of `n` gives `n` modulo `256 ^ k`. -/
theorem toNat_ofNat (k n : Nat) : toNat (ofNat k n) = n % 256 ^ k := by
  induction k generalizing n with
  | zero => simp [ofNat, toNat, Nat.mod_one]
  | succ k ih =>
      rw [ofNat, toNat_snoc, ih, Nat.pow_succ, Nat.mul_comm (256 ^ k) 256, Nat.mod_mul,
        UInt8.toNat_ofNat']
      omega

theorem toNat_u32be (n : Nat) : toNat (u32be n) = n % 2 ^ 32 := toNat_ofNat 4 n

theorem toNat_u16be (n : Nat) : toNat (u16be n) = n % 2 ^ 16 := toNat_ofNat 2 n

/-- The four digits only depend on the number modulo `2 ^ 32`. -/
theorem u32be_inj {m n : Nat} (h : u32be m = u32be n) : m % 2 ^ 32 = n % 2 ^ 32 := by
  rw [← toNat_u32be, ← toNat_u32be, h]

/-- Writing the number that `k` digits stand for gives those digits. -/
theorem ofNat_toNat {b : Bytes} {k : Nat} (h : b.length = k) : ofNat k (toNat b) = b := by
  subst h
  induction b using List.reverseRecOn with
  | nil => rfl
  | append_singleton b x ih =>
      have hx : (toNat b * 256 + x.toNat) / 256 = toNat b := by
        have := x.toNat_lt
        omega
      rw [List.length_append, List.length_singleton, ofNat, toNat_snoc, hx, ih]
      congr 2
      apply UInt8.toNat_inj.mp
      rw [UInt8.toNat_ofNat']
      have := x.toNat_lt
      omega

/-! ## Slices of concatenations -/

/-- The part that follows a prefix of known length. -/
theorem slice_mid (a b c : Bytes) {i j : Nat} (hi : a.length = i) (hj : i + b.length = j) :
    slice (a ++ (b ++ c)) i j = b := by
  subst hi; subst hj
  simp [slice]

theorem length_slice (b : Bytes) {i j : Nat} (hij : i ≤ j) (hj : j ≤ b.length) :
    (slice b i j).length = j - i := by
  simp only [slice, List.length_take, List.length_drop]
  omega

theorem slice_append_slice (b : Bytes) {i j k : Nat} (hij : i ≤ j) (hjk : j ≤ k) :
    slice b i j ++ slice b j k = slice b i k := by
  have hd : b.drop j = (b.drop i).drop (j - i) := by
    rw [List.drop_drop, Nat.add_sub_cancel' hij]
  rw [slice, slice, slice, hd, ← List.take_add, show j - i + (k - j) = k - i by omega]

theorem slice_all (b : Bytes) : slice b 0 b.length = b := by
  simp [slice]

theorem getU64_mid (a c : Bytes) (n : Nat) {i : Nat} (hi : a.length = i) :
    getU64 (a ++ (u64be n ++ c)) i = n % 2 ^ 64 := by
  rw [getU64, slice_mid a _ c hi (by simp [u64be]), u64be, toNat_ofNat]
  norm_num

theorem getU32_mid (a c : Bytes) (n : Nat) {i : Nat} (hi : a.length = i) :
    getU32 (a ++ (u32be n ++ c)) i = n % 2 ^ 32 := by
  rw [getU32, slice_mid a _ c hi (by simp), toNat_u32be]

theorem getU16_mid (a c : Bytes) (n : Nat) {i : Nat} (hi : a.length = i) :
    getU16 (a ++ (u16be n ++ c)) i = n % 2 ^ 16 := by
  rw [getU16, slice_mid a _ c hi (by simp), toNat_u16be]

end Bytes

end EncedoChat
