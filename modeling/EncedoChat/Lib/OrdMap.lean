import Mathlib.Data.List.Basic
import Mathlib.Data.List.Nodup

/-!
# Maps that remember insertion order

The `Map` of the source language: setting an existing key keeps its place, a new key goes last.
-/

namespace EncedoChat

/-- A finite map as its entries in insertion order, each key once. -/
structure OrdMap (κ ν : Type) where
  entries : List (κ × ν)
  nodup : (entries.map Prod.fst).Nodup

namespace OrdMap

variable {κ ν : Type} [DecidableEq κ]

def empty : OrdMap κ ν := ⟨[], List.nodup_nil⟩

instance : Inhabited (OrdMap κ ν) := ⟨empty⟩

def keys (m : OrdMap κ ν) : List κ := m.entries.map Prod.fst

def size (m : OrdMap κ ν) : Nat := m.entries.length

/-- `m.get(k)`. -/
def get (m : OrdMap κ ν) (k : κ) : Option ν := (m.entries.find? (fun e => e.1 = k)).map Prod.snd

def has (m : OrdMap κ ν) (k : κ) : Bool := (m.get k).isSome

/-- `m.delete(k)`. -/
def delete (m : OrdMap κ ν) (k : κ) : OrdMap κ ν :=
  ⟨m.entries.filter (fun e => e.1 ≠ k), (List.filter_sublist.map _).nodup m.nodup⟩

/-- The entries with the value at `k` replaced, or a new entry at the end. -/
def insertEntry (k : κ) (v : ν) : List (κ × ν) → List (κ × ν)
  | [] => [(k, v)]
  | e :: es => if e.1 = k then (k, v) :: es else e :: insertEntry k v es

theorem mem_keys_insertEntry {k k' : κ} {v : ν} {es : List (κ × ν)} :
    k' ∈ (insertEntry k v es).map Prod.fst ↔ k' = k ∨ k' ∈ es.map Prod.fst := by
  induction es with
  | nil => simp [insertEntry]
  | cons e es ih =>
      rw [insertEntry]
      by_cases he : e.1 = k
      · subst he; simp
      · rw [if_neg he, List.map_cons, List.mem_cons, ih, List.map_cons, List.mem_cons]
        tauto

theorem nodup_insertEntry {k : κ} {v : ν} {es : List (κ × ν)} (h : (es.map Prod.fst).Nodup) :
    ((insertEntry k v es).map Prod.fst).Nodup := by
  induction es with
  | nil => simp [insertEntry]
  | cons e es ih =>
      rw [List.map_cons, List.nodup_cons] at h
      rw [insertEntry]
      by_cases he : e.1 = k
      · subst he; simpa using h
      · rw [if_neg he, List.map_cons, List.nodup_cons, mem_keys_insertEntry]
        exact ⟨fun hm => hm.elim he h.1, ih h.2⟩

/-- `m.set(k, v)`. -/
def set (m : OrdMap κ ν) (k : κ) (v : ν) : OrdMap κ ν :=
  ⟨insertEntry k v m.entries, nodup_insertEntry m.nodup⟩

/-- Keep the entries for which `p` holds. -/
def filter (m : OrdMap κ ν) (p : κ → ν → Bool) : OrdMap κ ν :=
  ⟨m.entries.filter (fun e => p e.1 e.2), (List.filter_sublist.map _).nodup m.nodup⟩

/-- Apply `f` to every value. -/
def map {ν' : Type} (m : OrdMap κ ν) (f : κ → ν → ν') : OrdMap κ ν' :=
  ⟨m.entries.map (fun e => (e.1, f e.1 e.2)), by simpa [Function.comp_def] using m.nodup⟩

/-- Delete from the oldest entry on until at most `n` are left. -/
def trim (m : OrdMap κ ν) (n : Nat) : OrdMap κ ν :=
  ⟨m.entries.drop (m.size - n), ((List.drop_sublist _ _).map _).nodup m.nodup⟩

omit [DecidableEq κ] in
@[ext] theorem ext {m m' : OrdMap κ ν} (h : m.entries = m'.entries) : m = m' := by
  cases m; cases m'; simp_all

/-! ## Reading -/

@[simp] theorem get_empty (k : κ) : (empty : OrdMap κ ν).get k = none := rfl

theorem get_eq_some {m : OrdMap κ ν} {k : κ} {v : ν} : m.get k = some v ↔ (k, v) ∈ m.entries := by
  rw [get, Option.map_eq_some_iff]
  constructor
  · rintro ⟨⟨k', v'⟩, hf, rfl⟩
    have hk := List.find?_some hf
    simp only [decide_eq_true_eq] at hk
    exact hk ▸ List.mem_of_find?_eq_some hf
  · intro hm
    cases hf : m.entries.find? (fun e => e.1 = k) with
    | none => simpa using List.find?_eq_none.mp hf _ hm
    | some e =>
        have hk : e.1 = k := by simpa using List.find?_some hf
        have he := List.mem_of_find?_eq_some hf
        refine ⟨e, rfl, ?_⟩
        have := List.inj_on_of_nodup_map m.nodup he hm hk
        simp [this]

theorem get_eq_none {m : OrdMap κ ν} {k : κ} : m.get k = none ↔ k ∉ m.keys := by
  rw [get, Option.map_eq_none_iff, List.find?_eq_none]
  simp only [keys, List.mem_map, not_exists, not_and, decide_eq_true_eq]

theorem mem_keys {m : OrdMap κ ν} {k : κ} : k ∈ m.keys ↔ ∃ v, m.get k = some v := by
  rw [← not_iff_not, ← get_eq_none]
  cases m.get k <;> simp

theorem get_set (m : OrdMap κ ν) (k k' : κ) (v : ν) :
    (m.set k v).get k' = if k' = k then some v else m.get k' := by
  obtain ⟨es, hnd⟩ := m
  simp only [get, set]
  clear hnd
  induction es with
  | nil => by_cases h : k' = k <;> simp [insertEntry, h, eq_comm]
  | cons e es ih =>
      rw [insertEntry]
      by_cases he : e.1 = k
      · subst he
        by_cases h : k' = e.1
        · subst h; simp
        · simp [h, Ne.symm h]
      · rw [if_neg he]
        by_cases h : e.1 = k'
        · subst h; simp [he]
        · simpa [List.find?_cons, h] using ih

theorem get_delete (m : OrdMap κ ν) (k k' : κ) :
    (m.delete k).get k' = if k' = k then none else m.get k' := by
  by_cases h : k' = k
  · subst h
    rw [if_pos rfl, get_eq_none]
    simp [keys, delete]
  · rw [if_neg h]
    cases hg : m.get k' with
    | none =>
        rw [get_eq_none] at hg ⊢
        intro hm
        simp only [keys, delete, List.mem_map, List.mem_filter] at hm
        obtain ⟨e, ⟨he, -⟩, rfl⟩ := hm
        exact hg (List.mem_map_of_mem he)
    | some v =>
        rw [get_eq_some] at hg ⊢
        simpa [delete, h] using hg

theorem get_filter {m : OrdMap κ ν} {p : κ → ν → Bool} {k : κ} {v : ν} :
    (m.filter p).get k = some v ↔ m.get k = some v ∧ p k v = true := by
  rw [get_eq_some, get_eq_some]
  simp [filter, List.mem_filter]

theorem get_trim {m : OrdMap κ ν} {n : Nat} {k : κ} {v : ν} (h : (m.trim n).get k = some v) :
    m.get k = some v := by
  rw [get_eq_some] at h ⊢
  exact List.mem_of_mem_drop h

theorem insertEntry_new {k : κ} {v : ν} {es : List (κ × ν)} (h : k ∉ es.map Prod.fst) :
    insertEntry k v es = es ++ [(k, v)] := by
  induction es with
  | nil => rfl
  | cons e es ih =>
      rw [List.map_cons, List.mem_cons, not_or] at h
      rw [insertEntry, if_neg (fun he => h.1 he.symm), ih h.2, List.cons_append]

/-- A new entry goes last, so trimming to at least one entry keeps it. -/
theorem get_trim_set_new {m : OrdMap κ ν} {n : Nat} {k : κ} {v : ν} (hn : 0 < n)
    (hk : m.get k = none) : ((m.set k v).trim n).get k = some v := by
  rw [get_eq_none] at hk
  rw [get_eq_some]
  simp only [trim, set, size]
  rw [insertEntry_new hk, List.length_append, List.length_singleton,
    List.drop_append_of_le_length (by omega)]
  exact List.mem_append_right _ (List.mem_singleton_self _)

/-- New entries, set one after another, stand in their order. -/
theorem entries_foldl_set {α : Type} {k : α → κ} {v : α → ν} {l : List α} {m : OrdMap κ ν}
    (hnd : (l.map k).Nodup) (hnew : ∀ a ∈ l, k a ∉ m.keys) :
    (l.foldl (fun m a => m.set (k a) (v a)) m).entries = m.entries ++ l.map fun a => (k a, v a) := by
  induction l generalizing m with
  | nil => simp
  | cons a l ih =>
      rw [List.map_cons, List.nodup_cons] at hnd
      have ha : (m.set (k a) (v a)).entries = m.entries ++ [(k a, v a)] :=
        insertEntry_new (hnew a (List.mem_cons_self ..))
      rw [List.foldl_cons, ih hnd.2, ha, List.map_cons, List.append_assoc, List.singleton_append]
      intro b hb
      rw [keys, ha, List.map_append, List.mem_append, not_or]
      refine ⟨hnew b (List.mem_cons_of_mem _ hb), ?_⟩
      simp only [List.map_cons, List.map_nil, List.mem_singleton]
      intro he
      exact hnd.1 (he ▸ List.mem_map_of_mem hb)

theorem get_map {ν' : Type} (m : OrdMap κ ν) (f : κ → ν → ν') (k : κ) :
    (m.map f).get k = (m.get k).map (f k) := by
  cases hg : m.get k with
  | none =>
      rw [get_eq_none] at hg
      rw [Option.map_none, get_eq_none]
      simpa [keys, map] using hg
  | some v =>
      rw [get_eq_some] at hg
      rw [Option.map_some, get_eq_some]
      simp only [map, List.mem_map]
      exact ⟨_, hg, rfl⟩

theorem set_set (m : OrdMap κ ν) (k : κ) (v v' : ν) : (m.set k v).set k v' = m.set k v' := by
  have h : ∀ es : List (κ × ν), insertEntry k v' (insertEntry k v es) = insertEntry k v' es := by
    intro es
    induction es with
    | nil => simp [insertEntry]
    | cons e es ih => by_cases he : e.1 = k <;> simp [insertEntry, he, ih]
  exact ext (h m.entries)

/-! ## Values replaced throughout -/

theorem map_set {ν' : Type} (m : OrdMap κ ν) (f : κ → ν → ν') (k : κ) (v : ν) :
    (m.set k v).map f = (m.map f).set k (f k v) := by
  have h : ∀ es : List (κ × ν), (insertEntry k v es).map (fun e => (e.1, f e.1 e.2))
      = insertEntry k (f k v) (es.map fun e => (e.1, f e.1 e.2)) := by
    intro es
    induction es with
    | nil => rfl
    | cons e es ih => by_cases he : e.1 = k <;> simp [insertEntry, he, ih]
  exact ext (h m.entries)

theorem map_delete {ν' : Type} (m : OrdMap κ ν) (f : κ → ν → ν') (k : κ) :
    (m.delete k).map f = (m.map f).delete k := by
  apply ext
  simp only [map, delete, List.filter_map]
  rfl

omit [DecidableEq κ] in
theorem filter_map {ν' : Type} (m : OrdMap κ ν) (f : κ → ν → ν') (p : κ → ν' → Bool) :
    (m.map f).filter p = (m.filter fun k v => p k (f k v)).map f := by
  apply ext
  simp only [map, filter, List.filter_map]
  rfl

omit [DecidableEq κ] in
@[simp] theorem size_map {ν' : Type} (m : OrdMap κ ν) (f : κ → ν → ν') : (m.map f).size = m.size :=
  List.length_map ..

@[simp] theorem get_set_self (m : OrdMap κ ν) (k : κ) (v : ν) : (m.set k v).get k = some v := by
  rw [get_set, if_pos rfl]

theorem get_set_ne (m : OrdMap κ ν) {k k' : κ} (v : ν) (h : k' ≠ k) :
    (m.set k v).get k' = m.get k' := by
  rw [get_set, if_neg h]

@[simp] theorem get_delete_self (m : OrdMap κ ν) (k : κ) : (m.delete k).get k = none := by
  rw [get_delete, if_pos rfl]

theorem get_delete_ne (m : OrdMap κ ν) {k k' : κ} (h : k' ≠ k) :
    (m.delete k).get k' = m.get k' := by
  rw [get_delete, if_neg h]

theorem get_set_some {m : OrdMap κ ν} {k k' : κ} {v v' : ν} (h : (m.set k v).get k' = some v') :
    k' = k ∧ v' = v ∨ k' ≠ k ∧ m.get k' = some v' := by
  rw [get_set] at h
  split at h
  · rename_i hk
    exact Or.inl ⟨hk, (Option.some.inj h).symm⟩
  · rename_i hk
    exact Or.inr ⟨hk, h⟩

theorem get_delete_some {m : OrdMap κ ν} {k k' : κ} {v : ν} (h : (m.delete k).get k' = some v) :
    k' ≠ k ∧ m.get k' = some v := by
  rw [get_delete] at h
  split at h
  · cases h
  · rename_i hk
    exact ⟨hk, h⟩

/-- Setting entry after entry, the value of a key is that of the entries that have it, if they agree. -/
theorem get_foldl_set {α : Type} {k : α → κ} {v : α → ν} {a : α} {l : List α} {m : OrdMap κ ν}
    (hinj : ∀ b ∈ l, k b = k a → v b = v a) (ha : a ∈ l ∨ m.get (k a) = some (v a)) :
    (l.foldl (fun m e => m.set (k e) (v e)) m).get (k a) = some (v a) := by
  induction l generalizing m with
  | nil =>
      obtain h | h := ha
      · cases h
      · exact h
  | cons b l ih =>
      have hb : (m.set (k b) (v b)).get (k a) = if k a = k b then some (v b) else m.get (k a) := get_set ..
      apply ih fun c hc => hinj c (List.mem_cons_of_mem _ hc)
      by_cases hk : k a = k b
      · right
        rw [hb, if_pos hk, hinj b (List.mem_cons_self ..) hk.symm]
      · rw [hb, if_neg hk]
        refine ha.imp_left fun h => (List.mem_cons.mp h).resolve_left ?_
        intro he
        exact hk (he ▸ rfl)

/-- A value found after setting entry after entry is that of an entry, or was there before. -/
theorem get_foldl_set_some {α : Type} {k : α → κ} {v : α → ν} {x : κ} {y : ν} {l : List α} {m : OrdMap κ ν}
    (h : (l.foldl (fun m e => m.set (k e) (v e)) m).get x = some y) :
    (∃ a ∈ l, k a = x ∧ v a = y) ∨ m.get x = some y := by
  induction l generalizing m with
  | nil => exact Or.inr h
  | cons b l ih =>
      obtain ⟨a, ha, hka⟩ | hm := ih h
      · exact Or.inl ⟨a, List.mem_cons_of_mem _ ha, hka⟩
      · rw [get_set] at hm
        split at hm
        · rename_i hx
          exact Or.inl ⟨b, List.mem_cons_self .., hx.symm, Option.some.inj hm⟩
        · exact Or.inr hm

/-! ## How many entries a map has -/

theorem length_insertEntry_old {k : κ} {v : ν} {es : List (κ × ν)} (h : k ∈ es.map Prod.fst) :
    (insertEntry k v es).length = es.length := by
  induction es with
  | nil => cases h
  | cons e es ih =>
      rw [insertEntry]
      by_cases he : e.1 = k
      · rw [if_pos he, List.length_cons, List.length_cons]
      · have hmem : k ∈ es.map Prod.fst := (List.mem_cons.mp h).resolve_left (Ne.symm he)
        rw [if_neg he, List.length_cons, List.length_cons, ih hmem]

theorem size_set_old {m : OrdMap κ ν} {k : κ} {v v' : ν} (h : m.get k = some v) : (m.set k v').size = m.size :=
  length_insertEntry_old (mem_keys.mpr ⟨v, h⟩)

omit [DecidableEq κ] in
theorem size_trim_le (m : OrdMap κ ν) (n : Nat) : (m.trim n).size ≤ n := by
  simp only [trim, size, List.length_drop]
  omega

theorem size_delete_le (m : OrdMap κ ν) (k : κ) : (m.delete k).size ≤ m.size := List.length_filter_le ..

omit [DecidableEq κ] in
theorem size_filter_le (m : OrdMap κ ν) (p : κ → ν → Bool) : (m.filter p).size ≤ m.size := List.length_filter_le ..

/-! ## Which keys a map has -/

@[simp] theorem has_empty (k : κ) : (empty : OrdMap κ ν).has k = false := rfl

@[simp] theorem has_set (m : OrdMap κ ν) (k k' : κ) (v : ν) :
    (m.set k v).has k' = (decide (k' = k) || m.has k') := by
  simp only [has, get_set]
  split <;> simp [*]

@[simp] theorem has_delete (m : OrdMap κ ν) (k k' : κ) :
    (m.delete k).has k' = (!decide (k' = k) && m.has k') := by
  simp only [has, get_delete]
  split <;> simp [*]

theorem has_of_get {m : OrdMap κ ν} {k : κ} {v : ν} (h : m.get k = some v) : m.has k = true := by
  rw [has, h]
  rfl

theorem has_of_get_none {m : OrdMap κ ν} {k : κ} (h : m.get k = none) : m.has k = false := by
  rw [has, h]
  rfl

/-- Entries added where their key is not there yet. -/
theorem has_foldl_new (es : List (κ × ν)) (m : OrdMap κ ν) (k : κ) :
    (es.foldl (fun m e => if m.has e.1 then m else m.set e.1 e.2) m).has k =
      (m.has k || es.any (fun e => e.1 = k)) := by
  induction es generalizing m with
  | nil => simp
  | cons e es ih =>
      rw [List.foldl_cons, ih, List.any_cons]
      by_cases hk : k = e.1
      · subst hk
        cases hm : m.has e.1 <;> simp [hm]
      · cases hm : m.has e.1 <;> simp [hk, Ne.symm hk]

theorem any_entries (m : OrdMap κ ν) (k : κ) : m.entries.any (fun e => e.1 = k) = m.has k := by
  rw [Bool.eq_iff_iff, has, Option.isSome_iff_exists]
  simp [get_eq_some]

/-! ## What all values of a map satisfy -/

def All (Q : ν → Prop) (m : OrdMap κ ν) : Prop := ∀ k v, m.get k = some v → Q v

theorem All.empty {Q : ν → Prop} : (OrdMap.empty : OrdMap κ ν).All Q := fun _ _ h => nomatch h

theorem All.set {Q : ν → Prop} {m : OrdMap κ ν} (h : m.All Q) (k : κ) {v : ν} (hv : Q v) : (m.set k v).All Q := by
  intro k' v' hget
  obtain ⟨-, rfl⟩ | ⟨-, hold⟩ := get_set_some hget
  · exact hv
  · exact h k' v' hold

theorem All.delete {Q : ν → Prop} {m : OrdMap κ ν} (h : m.All Q) (k : κ) : (m.delete k).All Q :=
  fun k' v' hget => h k' v' (get_delete_some hget).2

theorem All.entries {Q : ν → Prop} {m : OrdMap κ ν} (h : m.All Q) : ∀ e ∈ m.entries, Q e.2 :=
  fun e he => h e.1 e.2 (get_eq_some.mpr he)

end OrdMap

end EncedoChat
