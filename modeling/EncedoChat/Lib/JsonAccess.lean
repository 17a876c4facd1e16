import EncedoChat.Lib.JsonText
import EncedoChat.Lib.JsonBytes

/-!
# What is read of a JSON value

The fields of a value, and what the language makes of a value where a string, a number or a truth is asked for.
-/

namespace EncedoChat.JsonText

open Units

/-- `v.k`; `none` is `undefined`. Nothing but an object has keys a sender chooses. -/
def Value.field (v : Value) (k : Units) : Option Value :=
  match v with
  | obj kvs => kvs.lookup k
  | _ => none

/-- Reading a field of `null` throws. -/
def Value.isNull : Value → Bool
  | null => true
  | _ => false

/-- The text, if `typeof v === 'string'`. -/
def asStr (v : Option Value) : Option Units :=
  match v with
  | some (.str s) => some s
  | _ => none

/-- The number, if `typeof v === 'number'`. -/
def asNum (v : Option Value) : Option Number :=
  match v with
  | some (.num x) => some x
  | _ => none

/-- The number, if `Number.isInteger(v)`. -/
def asInt (v : Option Value) : Option Int :=
  match v with
  | some (.num (.finite q)) => if q.den = 1 then some q.num else none
  | _ => none

/-- `Boolean(v)` -/
def truthy : Option Value → Bool
  | none | some .null | some (.bool false) => false
  | some (.num (.finite q)) => q ≠ 0
  | some (.str s) => s ≠ []
  | _ => true

/-- `String(v)` throws: an object's own `toString` is no function. -/
def Value.throws : Value → Bool
  | obj kvs => (kvs.lookup (ascii "toString")).isSome
  | arr xs => throwsItems xs
  | _ => false
where
  throwsItems : List Value → Bool
    | [] => false
    | x :: xs => throws x || throwsItems xs

section
variable (F : Doubles)

mutual

/-- `String(v)` -/
def text : Value → Units
  | .null => ascii "null"
  | .bool true => ascii "true"
  | .bool false => ascii "false"
  | .num (.finite q) => F.write q
  | .num (.infinity false) => ascii "Infinity"
  | .num (.infinity true) => ascii "-Infinity"
  | .str s => s
  | .arr xs => join xs
  | .obj _ => ascii "[object Object]"

/-- `xs.join()`, in which `null` is nothing. -/
def join : List Value → Units
  | [] => []
  | x :: xs => (if x.isNull then [] else text x) ++ (if xs.isEmpty then [] else [0x2C]) ++ join xs

end

/-- `String(v ?? d)`; `none` if it throws. -/
def label (v : Option Value) (d : Units) : Option Units :=
  match v with
  | none | some .null => some d
  | some v => if v.throws then none else some (text F v)

/-- `Number(v)`, where `ofText` is that of a string; `none` is no number, or what throws. -/
def toNumber (ofText : Units → Option Number) : Option Value → Option Number
  | none => none
  | some .null => some (.finite 0)
  | some (.bool b) => some (.finite (if b then 1 else 0))
  | some (.num x) => some x
  | some (.str s) => ofText s
  | some v => if v.throws then none else ofText (text F v)

end

/-- A whole number. -/
def Number.nat (n : Nat) : Number := .finite n

def Number.toInt : Number → Option Int
  | finite q => if q.den = 1 then some q.num else none
  | infinity _ => none

@[simp] theorem Number.toInt_nat (n : Nat) : (Number.nat n).toInt = some (n : Int) := by
  simp [Number.nat, Number.toInt]

end EncedoChat.JsonText

/-!
# The fields of a JSON object

An object without one of its fields, and one with a field set; what either leaves of the others.
-/

namespace EncedoChat.JsonText

/-- `delete v.k` -/
def Value.remove (v : Value) (k : Units) : Value :=
  match v with
  | obj kvs => .obj (kvs.filter fun e => e.1 ≠ k)
  | v => v

/-- `{ ...v, k: x }` -/
def Value.put (v : Value) (k : Units) (x : Value) : Value :=
  match v with
  | obj kvs => .obj (upsert kvs k x)
  | v => v

/-- A field that may be missing, among the members of an object. -/
def given (k : Units) (v : Option Value) : List (Units × Value) := (v.map fun v => (k, v)).toList

section
variable {k k' : Units} {x : Value} {kvs : List (Units × Value)}

theorem lookup_filter_ne (h : k' ≠ k) : (kvs.filter fun e => e.1 ≠ k).lookup k' = kvs.lookup k' := by
  induction kvs with
  | nil => rfl
  | cons e kvs ih =>
      obtain ⟨k₀, v⟩ := e
      by_cases hk : k₀ = k
      · have hne : (k' == k₀) = false := beq_eq_false_iff_ne.mpr (hk ▸ h)
        rw [List.filter_cons_of_neg (by simp [hk]), ih, List.lookup_cons, hne]
      · rw [List.filter_cons_of_pos (by simp [hk]), List.lookup_cons, List.lookup_cons, ih]

theorem lookup_filter_self : (kvs.filter fun e => e.1 ≠ k).lookup k = none := by
  rw [List.lookup_eq_none_iff]
  intro e he
  have hne : e.1 ≠ k := by simpa using (List.mem_filter.mp he).2
  simpa using hne.symm

theorem lookup_map_ne (h : k' ≠ k) : (kvs.map fun e => if e.1 = k then (k, x) else e).lookup k' = kvs.lookup k' := by
  induction kvs with
  | nil => rfl
  | cons e kvs ih =>
      obtain ⟨k₀, v⟩ := e
      by_cases hk : k₀ = k
      · have hne : (k' == k₀) = false := beq_eq_false_iff_ne.mpr (hk ▸ h)
        have hne' : (k' == k) = false := beq_eq_false_iff_ne.mpr h
        rw [List.map_cons, if_pos hk, List.lookup_cons, List.lookup_cons, ih, hne, hne']
      · rw [List.map_cons, if_neg hk, List.lookup_cons, List.lookup_cons, ih]

theorem lookup_upsert_ne (h : k' ≠ k) : (upsert kvs k x).lookup k' = kvs.lookup k' := by
  rw [upsert]
  split
  · exact lookup_map_ne h
  · rw [List.lookup_append]
    have hne : (k' == k) = false := beq_eq_false_iff_ne.mpr h
    simp [List.lookup_cons, hne]

theorem lookup_map_self (hk : k ∈ kvs.map Prod.fst) :
    (kvs.map fun e => if e.1 = k then (k, x) else e).lookup k = some x := by
  induction kvs with
  | nil => cases hk
  | cons e kvs ih =>
      obtain ⟨k₀, v⟩ := e
      by_cases h : k₀ = k
      · rw [List.map_cons, if_pos h, List.lookup_cons, beq_self_eq_true]
      · have hne : (k == k₀) = false := beq_eq_false_iff_ne.mpr (Ne.symm h)
        rw [List.map_cons, if_neg h, List.lookup_cons, hne]
        exact ih ((List.mem_cons.mp hk).resolve_left (Ne.symm h))

theorem lookup_upsert_self : (upsert kvs k x).lookup k = some x := by
  rw [upsert]
  split
  · rename_i hk
    exact lookup_map_self hk
  · rename_i hk
    have hnone : kvs.lookup k = none := by
      rw [List.lookup_eq_none_iff]
      intro e he
      have hne : e.1 ≠ k := fun heq => hk (heq ▸ List.mem_map_of_mem he)
      simpa using hne.symm
    rw [List.lookup_append, hnone]
    simp

theorem upsert_same (hnodup : (kvs.map Prod.fst).Nodup) (h : kvs.lookup k = some x) : upsert kvs k x = kvs := by
  have hmem : (k, x) ∈ kvs := by
    obtain ⟨l₁, l₂, rfl, -⟩ := List.lookup_eq_some_iff.mp h
    exact List.mem_append_right l₁ List.mem_cons_self
  rw [upsert, if_pos (List.mem_map_of_mem hmem)]
  conv => rhs; rw [← List.map_id kvs]
  rw [List.map_inj_left]
  intro e he
  split
  · rename_i hk
    exact List.inj_on_of_nodup_map hnodup hmem he hk.symm
  · rfl

end

theorem lookup_given (k k' : Units) (v : Option Value) : (given k v).lookup k' = if k' = k then v else none := by
  cases v with
  | none => exact (ite_self none).symm
  | some x =>
      rw [given, Option.map_some, Option.toList_some, List.lookup_cons]
      by_cases h : k' = k
      · rw [if_pos h, beq_iff_eq.mpr h]
      · rw [if_neg h, beq_eq_false_iff_ne.mpr h]
        rfl

theorem keys_given (k : Units) (v : Option Value) : List.Sublist ((given k v).map Prod.fst) [k] := by
  cases v with
  | none => exact List.nil_sublist _
  | some x => exact List.Sublist.refl _

theorem allMembers_given {p : Number → Prop} {k : Units} {v : Option Value} (h : ∀ x, v = some x → x.All p) :
    AllMembers p (given k v) := by
  cases v with
  | none => trivial
  | some x => exact ⟨h x rfl, trivial⟩

theorem allMembers_append {p : Number → Prop} {a b : List (Units × Value)} (ha : AllMembers p a) (hb : AllMembers p b) :
    AllMembers p (a ++ b) := by
  rw [allMembers_iff] at ha hb ⊢
  intro e he
  rcases List.mem_append.mp he with he | he
  · exact ha e he
  · exact hb e he

section
variable {v : Value} {k k' : Units} {x : Value} {p : Number → Prop}

theorem field_remove_self (k : Units) (v : Value) : (v.remove k).field k = none := by
  cases v with
  | obj kvs => exact lookup_filter_self
  | _ => rfl

theorem field_remove_ne (h : k' ≠ k) : (v.remove k).field k' = v.field k' := by
  cases v with
  | obj kvs => exact lookup_filter_ne h
  | _ => rfl

theorem field_put_ne (h : k' ≠ k) : (v.put k x).field k' = v.field k' := by
  cases v with
  | obj kvs => exact lookup_upsert_ne h
  | _ => rfl

theorem field_put_self (h : (v.field k').isSome) : (v.put k x).field k = some x := by
  cases v with
  | obj kvs => exact lookup_upsert_self
  | _ => cases h

theorem put_same (hall : v.All p) (h : v.field k = some x) : v.put k x = v := by
  cases v with
  | obj kvs => exact congrArg Value.obj (upsert_same hall.1 h)
  | _ => cases h

theorem all_remove (h : v.All p) (k : Units) : (v.remove k).All p := by
  cases v with
  | obj kvs =>
      refine ⟨h.1.sublist (List.filter_sublist.map _), allMembers_iff.mpr fun e he => ?_⟩
      exact allMembers_iff.mp h.2 e (List.mem_of_mem_filter he)
  | _ => exact h

theorem all_put (h : v.All p) (hk : (v.field k).isSome) (hx : x.All p) : (v.put k x).All p := by
  cases v with
  | obj kvs =>
      obtain ⟨y, hy⟩ := Option.isSome_iff_exists.mp hk
      obtain ⟨l₁, l₂, hkvs, -⟩ := List.lookup_eq_some_iff.mp hy
      have hmem : k ∈ kvs.map Prod.fst := by
        rw [hkvs]
        simp
      refine ⟨?_, allMembers_iff.mpr fun e he => ?_⟩
      · rw [keys_upsert_old hmem x]
        exact h.1
      · rw [upsert, if_pos hmem] at he
        obtain ⟨e', he', rfl⟩ := List.mem_map.mp he
        split
        · exact hx
        · exact allMembers_iff.mp h.2 e' he'
  | _ => exact h

end

end EncedoChat.JsonText
