import Mathlib.Data.Nat.Digits.Lemmas
import Mathlib.Tactic.NormNum
import EncedoChat.Lib.Bytes
import EncedoChat.Lib.Text

/-!
# The key in a PeerId

`ed25519OfPeerId` of `enroll.mjs` reads it with no library; `allowlist.mjs` knows a PeerId by its looks. What the first
reads, the second knows.
-/

namespace EncedoChat.Enroll

def B58 : List Char := "123456789ABCDEFGHJKLMNPQRSTUVWXYZabcdefghijkmnopqrstuvwxyz".toList

/-- `B58.indexOf(c)` -/
def digit (c : Char) : Option Nat := if c ∈ B58 then some (B58.idxOf c) else none

def number : Nat → List Char → Option Nat
  | n, [] => some n
  | n, c :: cs => do
    let v ← digit c
    number (n * 58 + v) cs

/-- The bytes of a number, without a leading zero. -/
def bytesOf (n : Nat) : Bytes := (Nat.digits 256 n).reverse.map UInt8.ofNat

/-- Each leading `1` is a zero byte. -/
def base58 (s : String) : Option Bytes := do
  let n ← number 0 s.toList
  some (List.replicate (s.toList.takeWhile (· = '1')).length 0 ++ bytesOf n)

def ED_HEAD : Bytes := [0x00, 0x24, 0x08, 0x01, 0x12, 0x20]

def ed25519OfPeerId (peerId : String) : Option Bytes := do
  let b ← base58 peerId
  if b.length = 38 ∧ b.take 6 = ED_HEAD then some (b.drop 6) else none

/-- `[1-9A-HJ-NP-Za-km-z]` -/
def isB58 (c : Char) : Bool :=
  Text.between '1' '9' c || Text.between 'A' 'H' c || Text.between 'J' 'N' c || Text.between 'P' 'Z' c ||
    Text.between 'a' 'k' c || Text.between 'm' 'z' c

def PEER_ID_HEAD : List Char := "12D3KooW".toList

/-- `PEER_ID` of `allowlist.mjs`. -/
def isPeerId (s : String) : Bool :=
  PEER_ID_HEAD.isPrefixOf s.toList && (s.toList.drop 8).length = 44 && (s.toList.drop 8).all isB58

/-! ## Digits -/

theorem digit_some {c : Char} {v : Nat} : digit c = some v ↔ c ∈ B58 ∧ B58.idxOf c = v := by
  rw [digit]
  split <;> simp [*]

theorem digit_lt {c : Char} {v : Nat} (h : digit c = some v) : v < 58 := by
  obtain ⟨hmem, rfl⟩ := digit_some.mp h
  exact List.idxOf_lt_length_of_mem hmem

theorem digit_inj {c c' : Char} {v : Nat} (h : digit c = some v) (h' : digit c' = some v) : c = c' := by
  obtain ⟨hmem, hv⟩ := digit_some.mp h
  obtain ⟨-, hv'⟩ := digit_some.mp h'
  exact (List.idxOf_inj hmem).mp (hv.trans hv'.symm)

theorem isB58_of_digit {c : Char} {v : Nat} (h : digit c = some v) : isB58 c = true := by
  have hall : B58.all isB58 = true := by decide
  exact List.all_eq_true.mp hall c (digit_some.mp h).1

/-- A text that is read has its digits, most significant first. -/
theorem number_some {n m : Nat} {cs : List Char} (h : number n cs = some m) :
    ∃ ds, List.Forall₂ (fun c v => digit c = some v) cs ds ∧ m = Nat.ofDigits 58 (ds.reverse ++ Nat.digits 58 n) := by
  induction cs generalizing n with
  | nil =>
      cases h
      exact ⟨[], .nil, by simp [Nat.ofDigits_digits]⟩
  | cons c cs ih =>
      obtain ⟨v, hv, hrest⟩ := Option.bind_eq_some_iff.mp h
      obtain ⟨ds, hds, rfl⟩ := ih hrest
      have hstep : Nat.ofDigits 58 (Nat.digits 58 (n * 58 + v)) = Nat.ofDigits 58 (v :: Nat.digits 58 n) := by
        rw [Nat.ofDigits_digits, Nat.ofDigits_cons, Nat.ofDigits_digits]
        ring
      refine ⟨v :: ds, .cons hv hds, ?_⟩
      rw [Nat.ofDigits_append, hstep, ← Nat.ofDigits_append]
      simp

/-- Without a leading zero the digits are those of the number. -/
theorem digits_number {ds : List Nat} (hlt : ∀ v ∈ ds, v < 58) (hhead : ∀ h : ds ≠ [], ds.head h ≠ 0) :
    Nat.digits 58 (Nat.ofDigits 58 ds.reverse) = ds.reverse := by
  apply Nat.digits_ofDigits 58 (by norm_num)
  · simpa using hlt
  · intro h
    rw [List.getLast_reverse]
    exact hhead (by simpa using h)

theorem toNat_bytesOf (n : Nat) : (bytesOf n).map UInt8.toNat = (Nat.digits 256 n).reverse := by
  have hlt : ∀ d ∈ (Nat.digits 256 n).reverse, (UInt8.ofNat d).toNat = d := by
    intro d hd
    have := Nat.digits_lt_base (by norm_num) (List.mem_reverse.mp hd)
    rw [UInt8.toNat_ofNat']
    omega
  rw [bytesOf, List.map_map]
  exact (List.map_congr_left hlt).trans (List.map_id _)

/-- No byte of a number leads with zero. -/
theorem bytesOf_head {n : Nat} {x : UInt8} {xs : Bytes} (h : bytesOf n = x :: xs) : x ≠ 0 := by
  intro hx
  have hdigits := toNat_bytesOf n
  rw [h, hx, List.map_cons] at hdigits
  have hne : n ≠ 0 := by
    rintro rfl
    simp [bytesOf] at h
  have hlast := Nat.getLast_digit_ne_zero 256 hne
  rw [← List.head_reverse (by simp [Nat.digits_ne_nil_iff_ne_zero, hne])] at hlast
  simp [← hdigits] at hlast

/-! ## A PeerId with a key in it looks like one -/

/-- One zero byte leads, and the number begins with the rest of the head. -/
theorem head_of_key {z n : Nat} (hlen : (List.replicate z 0 ++ bytesOf n).length = 38)
    (hhead : (List.replicate z 0 ++ bytesOf n).take 6 = ED_HEAD) : z = 1 ∧ n / 256 ^ 32 = 0x2408011220 := by
  obtain ⟨key, hkey⟩ : ∃ key, List.replicate z 0 ++ bytesOf n = ED_HEAD ++ key := by
    rw [← hhead]
    exact ⟨_, (List.take_append_drop 6 _).symm⟩
  match z with
  | 0 =>
      rw [List.replicate_zero, List.nil_append, ED_HEAD] at hkey
      exact absurd rfl (bytesOf_head hkey)
  | 1 =>
      have hbytes : bytesOf n = [0x24, 0x08, 0x01, 0x12, 0x20] ++ key := by simpa [ED_HEAD] using hkey
      have hkeylen : key.length = 32 := by
        rw [hbytes] at hlen
        simpa using hlen
      have hdigits : Nat.digits 256 n = (key.map UInt8.toNat).reverse ++ [0x20, 0x12, 0x01, 0x08, 0x24] := by
        rw [← List.reverse_inj, ← toNat_bytesOf, hbytes]
        simp
      refine ⟨rfl, ?_⟩
      rw [Nat.self_div_pow_eq_ofDigits_drop 32 n (by norm_num), hdigits, List.drop_left' (by simpa using hkeylen)]
      rfl
  | z + 2 => simp [ED_HEAD, List.replicate_succ] at hkey

/-- The digits of `2D3KooW`. -/
theorem top_digits {n : Nat} (h : n / 256 ^ 32 = 0x2408011220) : n / 58 ^ 44 = 45971276209 := by
  have hlow : 0x2408011220 * 256 ^ 32 ≤ n := (Nat.le_div_iff_mul_le (by norm_num)).mp h.ge
  have hhigh : n < (0x2408011220 + 1) * 256 ^ 32 := (Nat.div_lt_iff_lt_mul (by norm_num)).mp (by omega)
  apply Nat.div_eq_of_lt_le
  · norm_num at hlow ⊢
    omega
  · norm_num at hhigh ⊢
    omega

theorem takeWhile_one {cs : List Char} (h : (cs.takeWhile (· = '1')).length = 1) :
    ∃ rest, cs = '1' :: rest ∧ ∀ c, rest.head? = some c → c ≠ '1' := by
  match cs with
  | [] => simp at h
  | c :: rest =>
      by_cases hc : c = '1'
      · subst hc
        refine ⟨rest, rfl, ?_⟩
        intro c hc hone
        subst hone
        cases rest with
        | nil => simp at hc
        | cons d rest =>
            cases hc
            simp at h
      · simp [hc] at h

theorem forall₂_unique {cs cs' : List Char} {ds : List Nat} (h : List.Forall₂ (fun c v => digit c = some v) cs ds)
    (h' : List.Forall₂ (fun c v => digit c = some v) cs' ds) : cs = cs' := by
  induction h generalizing cs' with
  | nil =>
      cases h'
      rfl
  | cons hd _ ih =>
      cases h' with
      | cons hd' hrest' => rw [digit_inj hd hd', ih hrest']

theorem all_isB58 {cs : List Char} {ds : List Nat} (h : List.Forall₂ (fun c v => digit c = some v) cs ds) :
    ∀ c ∈ cs, isB58 c = true := by
  intro c hc
  obtain ⟨i, hi, rfl⟩ := List.mem_iff_getElem.mp hc
  exact isB58_of_digit (h.get hi (h.length_eq ▸ hi))

theorem all_lt {cs : List Char} {ds : List Nat} (h : List.Forall₂ (fun c v => digit c = some v) cs ds) :
    ∀ v ∈ ds, v < 58 := by
  intro v hv
  obtain ⟨i, hi, rfl⟩ := List.mem_iff_getElem.mp hv
  exact digit_lt (h.get (h.length_eq ▸ hi) hi)

theorem digit_one : digit '1' = some 0 := by decide

/-- The digits after the leading `1`: seven are fixed and forty-four follow. -/
theorem digits_of_top {ds : List Nat} (hlt : ∀ v ∈ ds, v < 58) (hhead : ∀ h : ds ≠ [], ds.head h ≠ 0)
    (h : Nat.ofDigits 58 ds.reverse / 58 ^ 44 = 45971276209) :
    ds.length = 51 ∧ ds.take 7 = [1, 12, 2, 18, 46, 46, 29] := by
  have hdrop : ds.reverse.drop 44 = (ds.take (ds.length - 44)).reverse := by
    rw [List.drop_reverse]
  have htop : (ds.take (ds.length - 44)).reverse = Nat.digits 58 45971276209 := by
    rw [← h, Nat.self_div_pow_eq_ofDigits_drop 44 _ (by norm_num), digits_number hlt hhead, hdrop, digits_number]
    · exact fun v hv => hlt v (List.mem_of_mem_take hv)
    · intro hne
      rw [List.head_take]
      exact hhead _
  have hconst : Nat.digits 58 45971276209 = [29, 46, 46, 18, 2, 12, 1] := by norm_num
  rw [hconst, List.reverse_eq_iff] at htop
  have hlen : (ds.take (ds.length - 44)).length = 7 := by rw [htop]; rfl
  rw [List.length_take] at hlen
  have h51 : ds.length = 51 := by omega
  rw [h51] at htop
  exact ⟨h51, htop⟩

theorem isPeerId_of_key {peerId : String} {key : Bytes} (h : ed25519OfPeerId peerId = some key) :
    isPeerId peerId = true := by
  obtain ⟨b, hb, hkey⟩ := Option.bind_eq_some_iff.mp h
  obtain ⟨n, hn, hz⟩ := Option.bind_eq_some_iff.mp hb
  obtain ⟨hlen, hhead⟩ : b.length = 38 ∧ b.take 6 = ED_HEAD := by
    by_contra hno
    rw [if_neg hno] at hkey
    cases hkey
  cases hz
  obtain ⟨hone, htop⟩ := head_of_key hlen hhead
  obtain ⟨rest, hcs, hnext⟩ := takeWhile_one hone
  obtain ⟨ds, hds, hnum⟩ := number_some hn
  rw [hcs] at hds
  cases hds with
  | @cons _ v _ ds hv hrest =>
      have hzero : v = 0 := Option.some.inj (hv.symm.trans digit_one)
      have hval : n = Nat.ofDigits 58 ds.reverse := by
        rw [hnum, hzero]
        simp [Nat.ofDigits_append]
      have hlead : ∀ h : ds ≠ [], ds.head h ≠ 0 := by
        intro hne hhead
        cases hrest with
        | nil => exact hne rfl
        | cons hd _ =>
            rw [List.head_cons] at hhead
            rw [hhead] at hd
            exact hnext _ rfl (digit_inj hd digit_one)
      obtain ⟨h51, hseven⟩ := digits_of_top (all_lt hrest) hlead (hval ▸ top_digits htop)
      have hword : rest.take 7 = "2D3KooW".toList := by
        have htake := List.forall₂_take 7 hrest
        rw [hseven] at htake
        apply forall₂_unique htake
        decide
      have hsplit : rest = "2D3KooW".toList ++ rest.drop 7 := by
        rw [← hword, List.take_append_drop]
      have hrestlen : rest.length = 51 := hrest.length_eq.trans h51
      rw [isPeerId, hcs, Bool.and_eq_true, Bool.and_eq_true]
      refine ⟨⟨?_, by simp [hrestlen]⟩, ?_⟩
      · rw [hsplit]
        rfl
      · rw [List.all_eq_true]
        exact fun c hc => all_isB58 hrest c (List.mem_of_mem_drop hc)

end EncedoChat.Enroll
