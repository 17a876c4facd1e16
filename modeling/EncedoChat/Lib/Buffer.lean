import EncedoChat.Lib.Bytes

/-!
# Buffers of a fixed length

What a typed array does with its bounds: `set` fails where the bytes do not fit, a write to an index outside is ignored,
and a read outside is told apart from what was read.
-/

namespace EncedoChat.Buffer

/-- The place of a read that is not in the buffer. -/
inductive Outside where
  | index (i : Nat)
  | range (i j : Nat)
  deriving DecidableEq, Repr

/-- `new Uint8Array(n)` -/
def zeros (n : Nat) : Bytes := List.replicate n 0

/-- `b.set(v, i)`; nothing where it throws. -/
def put (b : Bytes) (i : Nat) (v : Bytes) : Option Bytes :=
  if i + v.length ≤ b.length then some (b.take i ++ (v ++ b.drop (i + v.length))) else none

/-- `b[i] = x` -/
def poke (b : Bytes) (i : Nat) (x : UInt8) : Bytes := b.set i x

/-- `b[i]` -/
def peek (b : Bytes) (i : Nat) : Except Outside UInt8 :=
  match b[i]? with
  | some x => .ok x
  | none => .error (.index i)

/-- `b.subarray(i, j)` -/
def sub (b : Bytes) (i j : Nat) : Except Outside Bytes :=
  if i ≤ j ∧ j ≤ b.length then .ok (b.slice i j) else .error (.range i j)

variable {a b v : Bytes} {i j k g : Nat}

@[simp] theorem length_zeros (n : Nat) : (zeros n).length = n := List.length_replicate

theorem zeros_zero : zeros 0 = [] := rfl

theorem length_put {b' : Bytes} (h : put b i v = some b') : b'.length = b.length := by
  rw [put] at h
  split at h
  · cases h
    simp only [List.length_append, List.length_take, List.length_drop]
    omega
  · cases h

theorem put_isSome (h : i + v.length ≤ b.length) : ∃ b', put b i v = some b' := ⟨_, if_pos h⟩

/-- What is written over as much. -/
theorem put_mid (a c : Bytes) {old : Bytes} (hi : i = a.length) (hv : v.length = old.length) :
    put (a ++ (old ++ c)) i v = some (a ++ (v ++ c)) := by
  have hfit : i + v.length ≤ (a ++ (old ++ c)).length := by
    simp only [List.length_append]
    omega
  have hdrop : (a ++ (old ++ c)).drop (i + v.length) = c := by
    rw [hi, hv, List.drop_length_add_append, List.drop_left]
  rw [put, if_pos hfit, hdrop, hi, List.take_left]

/-- What is written after a gap into the part that is still blank. -/
theorem put_zeros (hi : i = a.length + g) (hfit : g + v.length ≤ k) :
    put (a ++ zeros k) i v = some (((a ++ zeros g) ++ v) ++ zeros (k - (g + v.length))) := by
  have hlen : i + v.length ≤ (a ++ zeros k).length := by
    simp only [List.length_append, length_zeros]
    omega
  have htake : (a ++ zeros k).take i = a ++ zeros g := by
    rw [hi, List.take_length_add_append, zeros, List.take_replicate, Nat.min_eq_left (by omega), zeros]
  have hdrop : (a ++ zeros k).drop (i + v.length) = zeros (k - (g + v.length)) := by
    rw [hi, Nat.add_assoc, List.drop_length_add_append, zeros, List.drop_replicate, zeros]
  rw [put, if_pos hlen, htake, hdrop, ← List.append_assoc]

theorem poke_zeros (x : UInt8) (hi : i = a.length + g) (hfit : g + 1 ≤ k) :
    poke (a ++ zeros k) i x = ((a ++ zeros g) ++ [x]) ++ zeros (k - (g + 1)) := by
  have hx : put (a ++ zeros k) i [x] = some (poke (a ++ zeros k) i x) := by
    have hlt : i < (a ++ zeros k).length := by
      simp only [List.length_append, length_zeros]
      omega
    rw [put, if_pos (by rw [List.length_singleton]; exact hlt), poke, List.set_eq_take_append_cons_drop, if_pos hlt, List.singleton_append,
      List.length_singleton]
  rw [put_zeros hi (by simpa using hfit), Option.some_inj] at hx
  exact hx.symm

/-- What is written next to what stands there. -/
theorem put_next (hi : i = a.length) (hfit : v.length ≤ k) :
    put (a ++ zeros k) i v = some ((a ++ v) ++ zeros (k - v.length)) := by
  rw [put_zeros (g := 0) hi (by omega), Nat.zero_add, zeros_zero, List.append_nil]

theorem poke_next (x : UInt8) (hi : i = a.length) (hfit : 1 ≤ k) :
    poke (a ++ zeros k) i x = (a ++ [x]) ++ zeros (k - 1) := by
  rw [poke_zeros (g := 0) x hi (by omega), Nat.zero_add, zeros_zero, List.append_nil]

theorem sub_ok (hij : i ≤ j) (hj : j ≤ b.length) : sub b i j = .ok (b.slice i j) := if_pos ⟨hij, hj⟩

theorem peek_ok (h : i < b.length) : peek b i = .ok b[i] := by
  rw [peek, List.getElem?_eq_getElem h]

theorem peek_mid (a c : Bytes) (x : UInt8) (hi : a.length = i) : peek (a ++ x :: c) i = .ok x := by
  subst hi
  rw [peek, List.getElem?_append_right (Nat.le_refl _), Nat.sub_self, List.getElem?_cons_zero]

theorem sub_mid (a c : Bytes) (hi : a.length = i) (hj : i + v.length = j) : sub (a ++ (v ++ c)) i j = .ok v := by
  rw [sub_ok (by omega) (by simp only [List.length_append]; omega), Bytes.slice_mid a v c hi hj]

end EncedoChat.Buffer
