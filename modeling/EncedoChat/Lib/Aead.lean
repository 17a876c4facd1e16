import Mathlib.Data.List.Nodup
import EncedoChat.Lib.Bytes

/-!
# An ideal AEAD as a log

What was sealed stands in a log. Opening under a key, a nonce and associated data finds what was sealed
under the same, and nothing else opens.
-/

namespace EncedoChat

/-- One sealing: what it was made with, and what travels. -/
structure Box (K N : Type) where
  key : K
  nonce : N
  aad : Bytes
  ct : Bytes
  pt : Bytes
  deriving DecidableEq

namespace Box

variable {K N : Type} [DecidableEq K] [DecidableEq N]

/-- The entry that a decryption finds. -/
def Matches (b : Box K N) (k : K) (n : N) (aad ct : Bytes) : Prop :=
  b.key = k ∧ b.nonce = n ∧ b.aad = aad ∧ b.ct = ct

instance (b : Box K N) (k : K) (n : N) (aad ct : Bytes) : Decidable (b.Matches k n aad ct) :=
  inferInstanceAs (Decidable (_ ∧ _ ∧ _ ∧ _))

/-- Open what stands in the log. -/
def openIn (log : List (Box K N)) (k : K) (n : N) (aad ct : Bytes) : Option Bytes :=
  (log.find? fun b => b.Matches k n aad ct).map Box.pt

theorem openIn_eq_some {log : List (Box K N)} {k : K} {n : N} {aad ct pt : Bytes}
    (h : openIn log k n aad ct = some pt) : ∃ b ∈ log, b.Matches k n aad ct ∧ b.pt = pt := by
  obtain ⟨b, hb, rfl⟩ := Option.map_eq_some_iff.mp h
  exact ⟨b, List.mem_of_find?_eq_some hb, by simpa using List.find?_some hb, rfl⟩

/-- A sealed text opens, to its own plaintext if no other was sealed under its key and nonce. -/
theorem openIn_sealed {log : List (Box K N)} (hnd : (log.map fun b => (b.key, b.nonce)).Nodup)
    {b : Box K N} (hb : b ∈ log) : openIn log b.key b.nonce b.aad b.ct = some b.pt := by
  unfold openIn
  cases hf : log.find? (fun b' => b'.Matches b.key b.nonce b.aad b.ct) with
  | none => simpa [Matches] using List.find?_eq_none.mp hf b hb
  | some b' =>
      have hm : b'.Matches b.key b.nonce b.aad b.ct := by simpa using List.find?_some hf
      have heq : b' = b := List.inj_on_of_nodup_map hnd (List.mem_of_find?_eq_some hf) hb
        (by rw [hm.1, hm.2.1])
      rw [heq, Option.map_some]

end Box

end EncedoChat
