import EncedoChat.Lib.JsonText
import EncedoChat.Lib.Replaced
import EncedoChat.Lib.Utf8

/-!
# Garbled JSON

JSON some of whose characters were lost on the way is JSON still, and no longer that of the same value.
-/

namespace EncedoChat.Units

/-- Some code points that are no ASCII are lost, each for two U+FFFD or more. -/
inductive Gone : List Units → List Units → Prop where
  | nil : Gone [] []
  | keep (p : Units) {a b : List Units} : Gone a b → Gone (p :: a) (p :: b)
  | lose {p : Units} (k : Nat) {a b : List Units} : (∀ u ∈ p, ¬Ascii u) → Gone a b →
      Gone (p :: a) (List.replicate (k + 2) [0xFFFD] ++ b)

theorem Gone.refl (a : List Units) : Gone a a := by
  induction a with
  | nil => exact .nil
  | cons p a ih => exact .keep p ih

theorem Gone.split {a b qs : List Units} (h : Gone (a ++ b) qs) : ∃ qa qb, qs = qa ++ qb ∧ Gone a qa ∧ Gone b qb := by
  induction a generalizing qs with
  | nil => exact ⟨[], qs, rfl, .nil, h⟩
  | cons p a ih =>
      cases h with
      | keep p h =>
          obtain ⟨qa, qb, rfl, ha, hb⟩ := ih h
          exact ⟨p :: qa, qb, rfl, .keep p ha, hb⟩
      | lose k hp h =>
          obtain ⟨qa, qb, rfl, ha, hb⟩ := ih h
          exact ⟨_, qb, (List.append_assoc _ _ _).symm, .lose k hp ha, hb⟩

theorem Gone.cons_ascii {u : UInt16} (hu : Ascii u) {s : Units} {qs : List Units} (h : Gone (points (u :: s)) qs) :
    ∃ qs', qs = [u] :: qs' ∧ Gone (points s) qs' := by
  rw [points_cons hu.not_high] at h
  cases h with
  | keep p h => exact ⟨_, rfl, h⟩
  | lose k hp h => exact absurd hu (hp u List.mem_cons_self)

theorem Gone.ascii {s : Units} (hs : ∀ u ∈ s, Ascii u) {qs : List Units} (h : Gone (points s) qs) : qs.flatten = s := by
  induction s generalizing qs with
  | nil =>
      cases h
      rfl
  | cons u s ih =>
      obtain ⟨qs', rfl, h'⟩ := h.cons_ascii (hs u List.mem_cons_self)
      rw [List.flatten_cons, ih (fun v hv => hs v (List.mem_cons_of_mem u hv)) h']
      rfl

theorem Gone.append {s t : Units} (ht : Clean t) {qs : List Units} (h : Gone (points (s ++ t)) qs) :
    ∃ qa qb, qs.flatten = qa.flatten ++ qb.flatten ∧ Gone (points s) qa ∧ Gone (points t) qb := by
  rw [points_append ht] at h
  obtain ⟨qa, qb, rfl, ha, hb⟩ := h.split
  exact ⟨qa, qb, List.flatten_append, ha, hb⟩

/-! ## What is left of a string -/

theorem points_replicate (n : Nat) (t : Units) :
    points ((List.replicate n [0xFFFD]).flatten ++ t) = List.replicate n [0xFFFD] ++ points t := by
  induction n with
  | zero => rfl
  | succ n ih =>
      rw [List.replicate_succ, List.flatten_cons, List.append_assoc]
      exact (points_cons (by decide) _).trans (congrArg _ ih)

theorem Gone.clean {s : Units} (hs : Clean s) {qs : List Units} (h : Gone (points s) qs) : Clean qs.flatten := by
  cases hp : points s with
  | nil =>
      rw [hp] at h
      cases h
      exact fun u hu => by cases hu
  | cons p ps =>
      obtain ⟨t, rfl, -⟩ := points_cons_inv hp
      have hne : p ≠ [] := points_ne_nil (s := p ++ t) (hp ▸ List.mem_cons_self)
      rw [hp] at h
      cases h with
      | keep p h =>
          intro u hu
          rw [List.flatten_cons, List.head?_append_of_ne_nil _ hne] at hu
          exact hs u (by rw [List.head?_append_of_ne_nil _ hne]; exact hu)
      | lose k hp h =>
          intro u hu
          obtain rfl := Option.some.inj hu
          decide

/-- What is lost joins with nothing. -/
theorem Gone.points_flatten {s : Units} {qs : List Units} (h : Gone (points s) qs) : points qs.flatten = qs := by
  fun_induction points s generalizing qs with
  | case1 =>
      cases h
      rfl
  | case2 u =>
      cases h with
      | keep p h =>
          cases h
          rfl
      | lose k hp h =>
          cases h
          rw [List.flatten_append, points_replicate]
          rfl
  | case3 u l us hpair ih =>
      cases h with
      | @keep _ _ b h =>
          have hrest : points (u :: l :: b.flatten) = [u, l] :: points b.flatten := by rw [points, if_pos hpair]
          rw [List.flatten_cons, List.cons_append, List.cons_append, List.nil_append, hrest, ih h]
      | lose k hp h => rw [List.flatten_append, points_replicate, ih h]
  | case4 u l us hpair ih =>
      cases h with
      | @keep _ _ b h =>
          rw [List.flatten_cons]
          by_cases hu : isHigh u = true
          · have hl : Clean (l :: us) := by
              intro v hv
              obtain rfl := Option.some.inj hv
              rw [hu, Bool.true_and] at hpair
              exact Bool.eq_false_iff.mpr hpair
            rw [points_append (h.clean hl), ih h]
            rfl
          · rw [List.cons_append, points_cons (Bool.eq_false_iff.mpr hu), List.nil_append, ih h]
      | lose k hp h => rw [List.flatten_append, points_replicate, ih h]

/-! ## Between quotes -/

/-- One unit, or a pair. -/
def IsPoint (p : Units) : Prop := points p = [p]

theorem isPoint_of_mem {s p : Units} (h : p ∈ points s) : IsPoint p := by
  rcases points_cases h with ⟨u, rfl⟩ | ⟨u, l, hu, hl, rfl⟩
  · rfl
  · rw [IsPoint, points, hu, hl]
    rfl

theorem ascii_escapeUnit {u v : UInt16} (h : v ∈ escapeUnit u) : Ascii v := by
  have hdigit : ∀ n < 16, Ascii (hexDigit n) := by
    unfold Ascii
    decide
  have hn := u.toNat_lt
  simp only [escapeUnit, List.mem_cons, List.not_mem_nil, or_false] at h
  rcases h with rfl | rfl | rfl | rfl | rfl | rfl
  · exact (by decide : (0x5C : UInt16) < 0x80)
  · exact (by decide : (0x75 : UInt16) < 0x80)
  all_goals exact hdigit _ (by omega)

theorem ascii_pair {a b : UInt16} (ha : Ascii a) (hb : Ascii b) : ∀ v ∈ [a, b], Ascii v := by simp [ha, hb]

/-- A code point that is escaped is ASCII then; another that is no ASCII is left as it is. -/
theorem escape_cases {p : Units} (h : IsPoint p) :
    (∀ v ∈ escape p, Ascii v) ∨ (escape p = p ∧ (∀ u ∈ p, ¬Ascii u) ∧ Clean p) := by
  have hslash : Ascii 0x5C := (by decide : (0x5C : UInt16) < 0x80)
  rcases points_cases (s := p) (h ▸ List.mem_singleton_self p) with ⟨u, rfl⟩ | ⟨u, l, hu, hl, rfl⟩
  · rw [escape]
    repeat' split
    · exact .inl (ascii_pair hslash (by decide : (0x62 : UInt16) < 0x80))
    · exact .inl (ascii_pair hslash (by decide : (0x74 : UInt16) < 0x80))
    · exact .inl (ascii_pair hslash (by decide : (0x6E : UInt16) < 0x80))
    · exact .inl (ascii_pair hslash (by decide : (0x66 : UInt16) < 0x80))
    · exact .inl (ascii_pair hslash (by decide : (0x72 : UInt16) < 0x80))
    · rename_i hquote
      refine .inl (ascii_pair hslash ?_)
      simp only [Bool.or_eq_true, decide_eq_true_eq] at hquote
      rcases hquote with rfl | rfl
      · exact (by decide : (0x22 : UInt16) < 0x80)
      · exact hslash
    · exact .inl fun v => ascii_escapeUnit
    · rename_i hplain
      simp only [Bool.or_eq_true, not_or, Bool.not_eq_true] at hplain
      by_cases hu : Ascii u
      · exact .inl (by simpa using hu)
      · refine .inr ⟨rfl, by simpa using hu, fun v hv => ?_⟩
        obtain rfl := Option.some.inj hv
        exact hplain.2
  · have hhigh := (isHigh_iff u).mp hu
    have hlow := (isLow_iff l).mp hl
    refine .inr ⟨rfl, fun v hv hascii => ?_, fun v hv => ?_⟩
    · have hv' := UInt16.lt_iff_toNat_lt.mp hascii
      rcases List.mem_cons.mp hv with rfl | hv
      · exact absurd hv' (by simp; omega)
      · rw [List.mem_singleton.mp hv] at hv'
        exact absurd hv' (by simp; omega)
    · obtain rfl := Option.some.inj hv
      rw [Bool.eq_false_iff, ne_eq, isLow_iff]
      omega

theorem clean_ascii {s : Units} (h : ∀ u ∈ s, Ascii u) : Clean s := fun u hu => (h u (List.mem_of_mem_head? hu)).not_low

theorem escape_ne_nil {p : Units} (h : IsPoint p) : escape p ≠ [] := by
  rcases points_cases (s := p) (h ▸ List.mem_singleton_self p) with ⟨u, rfl⟩ | ⟨u, l, hu, hl, rfl⟩
  · rw [escape]
    repeat' split
    all_goals simp [escapeUnit]
  · exact List.cons_ne_nil u [l]

theorem clean_escape {p : Units} (h : IsPoint p) (t : Units) : Clean (escape p ++ t) := by
  intro u hu
  rw [List.head?_append_of_ne_nil _ (escape_ne_nil h)] at hu
  rcases escape_cases h with hascii | ⟨heq, -, hclean⟩
  · exact clean_ascii hascii u hu
  · rw [heq] at hu
    exact hclean u hu

/-- What is left between the quotes is what is left of the string. -/
theorem Gone.escape {ps : List Units} (hps : ∀ p ∈ ps, IsPoint p) {t : Units} (ht : Clean t) {qs : List Units}
    (h : Gone (points (ps.flatMap escape ++ t)) qs) : ∃ ps' qt, Gone ps ps' ∧ Gone (points t) qt ∧
      qs.flatten = ps'.flatMap Units.escape ++ qt.flatten := by
  induction ps generalizing qs with
  | nil => exact ⟨[], qs, .nil, h, rfl⟩
  | cons p ps ih =>
      obtain ⟨hp, hps⟩ := List.forall_mem_cons.mp hps
      have hclean : Clean (ps.flatMap Units.escape ++ t) := by
        cases ps with
        | nil => exact ht
        | cons q ps =>
            rw [List.flatMap_cons, List.append_assoc]
            exact clean_escape (hps q List.mem_cons_self) _
      rw [List.flatMap_cons, List.append_assoc] at h
      obtain ⟨qa, qb, heq, ha, hb⟩ := h.append hclean
      obtain ⟨ps', qt, hps', hqt, hrest⟩ := ih hps hb
      rw [heq, hrest]
      rcases escape_cases hp with hascii | ⟨hsame, hnone, -⟩
      · exact ⟨p :: ps', qt, .keep p hps', hqt, by rw [ha.ascii hascii]; simp⟩
      · rw [hsame, hp] at ha
        cases ha with
        | keep p ha =>
            cases ha
            exact ⟨p :: ps', qt, .keep p hps', hqt, by simp [hsame]⟩
        | lose k _ ha =>
            cases ha
            have hfffd : ∀ n, (List.replicate n [0xFFFD]).flatMap Units.escape = (List.replicate n [0xFFFD]).flatten := by
              intro n
              induction n with
              | zero => rfl
              | succ n ih => rw [List.replicate_succ, List.flatMap_cons, List.flatten_cons, ih]; rfl
            exact ⟨_, qt, .lose k hnone hps', hqt, by rw [List.append_nil, List.flatMap_append, hfffd, List.append_assoc]⟩

theorem Gone.quote {s t : Units} {qs : List Units} (h : Gone (points (quote s ++ t)) qs) :
    ∃ s' qt, Gone (points t) qt ∧ qs.flatten = Units.quote s' ++ qt.flatten := by
  have hquote : Ascii 0x22 := (by decide : (0x22 : UInt16) < 0x80)
  rw [Units.quote, List.cons_append, List.append_assoc] at h
  obtain ⟨qs', rfl, hbody⟩ := h.cons_ascii hquote
  obtain ⟨ps', q, hps', hq, heq⟩ := hbody.escape (fun p => isPoint_of_mem) (clean_cons hquote _)
  obtain ⟨qt, rfl, hqt⟩ := hq.cons_ascii hquote
  refine ⟨ps'.flatten, qt, hqt, ?_⟩
  rw [Units.quote, hps'.points_flatten, List.flatten_cons, heq]
  simp

end EncedoChat.Units

namespace EncedoChat.JsonText

open Units

/-! ## Merged -/

theorem length_upsert_le (kvs : List (Units × Value)) (k : Units) (v : Value) :
    (upsert kvs k v).length ≤ kvs.length + 1 ∧
      ((upsert kvs k v).length = kvs.length + 1 → upsert kvs k v = kvs ++ [(k, v)]) := by
  rw [upsert]
  split
  · simp
  · simp

/-- Where no member is lost none had its key from before. -/
theorem length_mergeMembers_le (kvs acc : List (Units × Value)) :
    (mergeMembers acc kvs).length ≤ acc.length + kvs.length ∧
      ((mergeMembers acc kvs).length = acc.length + kvs.length →
        mergeMembers acc kvs = acc ++ kvs.map fun e => (e.1, e.2.merge)) := by
  induction kvs generalizing acc with
  | nil => simp [mergeMembers]
  | cons e kvs ih =>
      obtain ⟨k, v⟩ := e
      obtain ⟨hle, heq⟩ := ih (upsert acc k v.merge)
      obtain ⟨hone, hnew⟩ := length_upsert_le acc k v.merge
      rw [mergeMembers, List.length_cons]
      refine ⟨by omega, fun h => ?_⟩
      rw [heq (by omega), hnew (by omega)]
      simp

/-! ## Garbled -/

variable {F : Doubles}

theorem clean_items (xs : List Value) (t : Units) : Clean (stringifyItems F xs ++ t) := by
  cases xs with
  | nil => exact clean_cons (by decide : (0x5D : UInt16) < 0x80) _
  | cons x xs => exact clean_cons (by decide : (0x2C : UInt16) < 0x80) _

theorem clean_members (kvs : List (Units × Value)) (t : Units) : Clean (stringifyMembers F kvs ++ t) := by
  obtain _ | ⟨⟨k, v⟩, kvs⟩ := kvs
  · exact clean_cons (by decide : (0x7D : UInt16) < 0x80) _
  · exact clean_cons (by decide : (0x2C : UInt16) < 0x80) _

mutual

/-- What is left of a value that was written is one that was written, and reads as the first only if it is that. -/
theorem gone_value (v : Value) (h : v.Each F.Holds) {t : Units} (ht : Clean t) {qs : List Units}
    (hgone : Gone (points (stringify F v ++ t)) qs) : ∃ w qt, Gone (points t) qt ∧
      qs.flatten = stringify F w ++ qt.flatten ∧ w.Each F.Holds ∧ (w.merge = v → w = v) ∧
      ((∃ kvs, v = .obj kvs) → ∃ kvs, w = .obj kvs) := by
  have hplain : (∀ u ∈ stringify F v, Ascii u) → ∃ w qt, Gone (points t) qt ∧
      qs.flatten = stringify F w ++ qt.flatten ∧ w.Each F.Holds ∧ (w.merge = v → w = v) ∧
      ((∃ kvs, v = .obj kvs) → ∃ kvs, w = .obj kvs) := by
    intro hascii
    obtain ⟨qa, qt, heq, ha, hqt⟩ := hgone.append ht
    exact ⟨v, qt, hqt, by rw [heq, ha.ascii hascii], h, fun _ => rfl, id⟩
  match v with
  | .null => exact hplain (by simp [stringify, ascii, Ascii])
  | .bool true => exact hplain (by simp [stringify, ascii, Ascii])
  | .bool false => exact hplain (by simp [stringify, ascii, Ascii])
  | .num x =>
      obtain ⟨q, rfl, hq⟩ := h
      exact hplain fun u hu => ascii_numeralUnit ((F.write_units hq).2 u (by rwa [stringify] at hu))
  | .str s =>
      rw [stringify] at hgone
      obtain ⟨s', qt, hqt, heq⟩ := hgone.quote
      exact ⟨.str s', qt, hqt, by rw [heq, stringify], trivial, fun hm => hm, fun ⟨kvs, hkvs⟩ => by cases hkvs⟩
  | .arr [] => exact hplain (by simp [stringify, Ascii])
  | .arr (x :: xs) =>
      obtain ⟨hx, hxs⟩ := h
      rw [stringify, List.cons_append, List.append_assoc] at hgone
      obtain ⟨qs', rfl, hbody⟩ := hgone.cons_ascii (by decide : (0x5B : UInt16) < 0x80)
      obtain ⟨x', q, hq, heq, hx', hxm, -⟩ := gone_value x hx (clean_items xs t) hbody
      obtain ⟨xs', qt, hqt, heqs, hxs', hxsm⟩ := gone_items xs hxs ht hq
      refine ⟨.arr (x' :: xs'), qt, hqt, ?_, ⟨hx', hxs'⟩, fun hm => ?_, fun ⟨kvs, hkvs⟩ => by cases hkvs⟩
      · rw [List.flatten_cons, heq, heqs, stringify]
        simp
      · rw [Value.merge, mergeItems, Value.arr.injEq, List.cons.injEq] at hm
        rw [hxm hm.1, hxsm hm.2]
  | .obj [] => exact hplain (by simp [stringify, Ascii])
  | .obj ((k, v) :: kvs) =>
      obtain ⟨hv, hkvs⟩ := h
      rw [stringify, List.cons_append, List.append_assoc, List.cons_append, List.append_assoc] at hgone
      obtain ⟨qs', rfl, hbody⟩ := hgone.cons_ascii (by decide : (0x7B : UInt16) < 0x80)
      obtain ⟨k', q, hq, heqk⟩ := hbody.quote
      obtain ⟨q', rfl, hqv⟩ := hq.cons_ascii (by decide : (0x3A : UInt16) < 0x80)
      obtain ⟨v', q, hq, heqv, hv', hvm, -⟩ := gone_value v hv (clean_members kvs t) hqv
      obtain ⟨kvs', qt, hqt, heqs, hkvs', hlen, hkvsm⟩ := gone_members kvs hkvs ht hq
      refine ⟨.obj ((k', v') :: kvs'), qt, hqt, ?_, ⟨hv', hkvs'⟩, fun hm => ?_, fun _ => ⟨_, rfl⟩⟩
      · rw [List.flatten_cons, heqk, List.flatten_cons, heqv, heqs, stringify]
        simp
      · rw [Value.merge, Value.obj.injEq] at hm
        -- a key that has come to be another's takes its place: then members are missing
        have hmerged := (length_mergeMembers_le ((k', v') :: kvs') []).2 (by rw [hm]; simp [hlen])
        rw [hm, List.nil_append, List.map_cons, List.cons.injEq, Prod.mk.injEq] at hmerged
        obtain ⟨⟨rfl, hval⟩, hrest⟩ := hmerged
        rw [hvm hval.symm, hkvsm hrest.symm]

theorem gone_items (xs : List Value) (h : EachItem F.Holds xs) {t : Units} (ht : Clean t) {qs : List Units}
    (hgone : Gone (points (stringifyItems F xs ++ t)) qs) : ∃ xs' qt, Gone (points t) qt ∧
      qs.flatten = stringifyItems F xs' ++ qt.flatten ∧ EachItem F.Holds xs' ∧ (mergeItems xs' = xs → xs' = xs) := by
  match xs with
  | [] =>
      rw [stringifyItems] at hgone
      obtain ⟨qt, rfl, hqt⟩ := hgone.cons_ascii (by decide : (0x5D : UInt16) < 0x80)
      exact ⟨[], qt, hqt, by simp [stringifyItems], trivial, fun _ => rfl⟩
  | x :: xs =>
      obtain ⟨hx, hxs⟩ := h
      rw [stringifyItems, List.cons_append, List.append_assoc] at hgone
      obtain ⟨qs', rfl, hbody⟩ := hgone.cons_ascii (by decide : (0x2C : UInt16) < 0x80)
      obtain ⟨x', q, hq, heq, hx', hxm, -⟩ := gone_value x hx (clean_items xs t) hbody
      obtain ⟨xs', qt, hqt, heqs, hxs', hxsm⟩ := gone_items xs hxs ht hq
      refine ⟨x' :: xs', qt, hqt, ?_, ⟨hx', hxs'⟩, fun hm => ?_⟩
      · rw [List.flatten_cons, heq, heqs, stringifyItems]
        simp
      · rw [mergeItems, List.cons.injEq] at hm
        rw [hxm hm.1, hxsm hm.2]

theorem gone_members (kvs : List (Units × Value)) (h : EachMember F.Holds kvs) {t : Units} (ht : Clean t) {qs : List Units}
    (hgone : Gone (points (stringifyMembers F kvs ++ t)) qs) : ∃ kvs' qt, Gone (points t) qt ∧
      qs.flatten = stringifyMembers F kvs' ++ qt.flatten ∧ EachMember F.Holds kvs' ∧ kvs'.length = kvs.length ∧
      ((kvs'.map fun e => (e.1, e.2.merge)) = kvs → kvs' = kvs) := by
  match kvs with
  | [] =>
      rw [stringifyMembers] at hgone
      obtain ⟨qt, rfl, hqt⟩ := hgone.cons_ascii (by decide : (0x7D : UInt16) < 0x80)
      exact ⟨[], qt, hqt, by simp [stringifyMembers], trivial, rfl, fun _ => rfl⟩
  | (k, v) :: kvs =>
      obtain ⟨hv, hkvs⟩ := h
      rw [stringifyMembers, List.cons_append, List.append_assoc, List.cons_append, List.append_assoc] at hgone
      obtain ⟨qs', rfl, hbody⟩ := hgone.cons_ascii (by decide : (0x2C : UInt16) < 0x80)
      obtain ⟨k', q, hq, heqk⟩ := hbody.quote
      obtain ⟨q', rfl, hqv⟩ := hq.cons_ascii (by decide : (0x3A : UInt16) < 0x80)
      obtain ⟨v', q, hq, heqv, hv', hvm, -⟩ := gone_value v hv (clean_members kvs t) hqv
      obtain ⟨kvs', qt, hqt, heqs, hkvs', hlen, hkvsm⟩ := gone_members kvs hkvs ht hq
      refine ⟨(k', v') :: kvs', qt, hqt, ?_, ⟨hv', hkvs'⟩, by simp [hlen], fun hm => ?_⟩
      · rw [List.flatten_cons, heqk, List.flatten_cons, heqv, heqs, stringifyMembers]
        simp
      · rw [List.map_cons, List.cons.injEq, Prod.mk.injEq] at hm
        obtain ⟨⟨rfl, hval⟩, hrest⟩ := hm
        rw [hvm hval, hkvsm hrest]

end

/-! ## One line -/

theorem escape_printing {p : Units} (h : IsPoint p) : ∀ u ∈ escape p, 0x20 ≤ u.toNat := by
  have hdigit : ∀ n < 16, 0x20 ≤ (hexDigit n).toNat := by decide
  rcases points_cases (s := p) (h ▸ List.mem_singleton_self p) with ⟨v, rfl⟩ | ⟨v, l, hv, hl, rfl⟩
  · rw [escape]
    repeat' split
    all_goals try simp
    · rename_i hquote
      simp only [Bool.or_eq_true, decide_eq_true_eq] at hquote
      rcases hquote with rfl | rfl <;> decide
    · have hn := v.toNat_lt
      simp only [escapeUnit, List.mem_cons, List.not_mem_nil, or_false]
      rintro u (rfl | rfl | rfl | rfl | rfl | rfl)
      · decide
      · decide
      all_goals exact hdigit _ (by omega)
    · rename_i hplain
      simp only [Bool.or_eq_true, decide_eq_true_eq, not_or, UInt16.lt_iff_toNat_lt] at hplain
      simpa using hplain.1.1
  · have hhigh := (isHigh_iff v).mp hv
    have hlow := (isLow_iff l).mp hl
    intro u hu
    rcases List.mem_cons.mp hu with rfl | hu
    · omega
    · rw [List.mem_singleton.mp hu]
      omega

theorem quote_printing (s : Units) : ∀ u ∈ quote s, 0x20 ≤ u.toNat := by
  intro u hu
  rw [quote, List.mem_cons, List.mem_append, List.mem_flatMap, List.mem_singleton] at hu
  rcases hu with rfl | ⟨p, hp, hu⟩ | rfl
  · decide
  · exact escape_printing (isPoint_of_mem hp) u hu
  · decide

mutual

/-- JSON is one line. -/
theorem stringify_printing (v : Value) (h : v.Each F.Holds) : ∀ u ∈ stringify F v, 0x20 ≤ u.toNat := by
  match v with
  | .null => simp [stringify, ascii]
  | .bool true => simp [stringify, ascii]
  | .bool false => simp [stringify, ascii]
  | .num x =>
      obtain ⟨q, rfl, hq⟩ := h
      intro u hu
      have hunit := (F.write_units hq).2 u (by rwa [stringify] at hu)
      simp only [isNumeralUnit, isDigit, Bool.or_eq_true, Bool.and_eq_true, decide_eq_true_eq, UInt16.le_iff_toNat_le,
        ← UInt16.toNat_inj, UInt16.reduceToNat] at hunit
      omega
  | .str s =>
      rw [stringify]
      exact quote_printing s
  | .arr [] => simp [stringify]
  | .arr (x :: xs) =>
      intro u hu
      rw [stringify, List.mem_cons, List.mem_append] at hu
      rcases hu with rfl | hu | hu
      · decide
      · exact stringify_printing x h.1 u hu
      · exact stringifyItems_printing xs h.2 u hu
  | .obj [] => simp [stringify]
  | .obj ((k, v) :: kvs) =>
      intro u hu
      rw [stringify, List.mem_cons, List.mem_append, List.mem_cons, List.mem_append] at hu
      rcases hu with rfl | hu | rfl | hu | hu
      · decide
      · exact quote_printing k u hu
      · decide
      · exact stringify_printing v h.1 u hu
      · exact stringifyMembers_printing kvs h.2 u hu

theorem stringifyItems_printing (xs : List Value) (h : EachItem F.Holds xs) :
    ∀ u ∈ stringifyItems F xs, 0x20 ≤ u.toNat := by
  match xs with
  | [] => simp [stringifyItems]
  | x :: xs =>
      intro u hu
      rw [stringifyItems, List.mem_cons, List.mem_append] at hu
      rcases hu with rfl | hu | hu
      · decide
      · exact stringify_printing x h.1 u hu
      · exact stringifyItems_printing xs h.2 u hu

theorem stringifyMembers_printing (kvs : List (Units × Value)) (h : EachMember F.Holds kvs) :
    ∀ u ∈ stringifyMembers F kvs, 0x20 ≤ u.toNat := by
  match kvs with
  | [] => simp [stringifyMembers]
  | (k, v) :: kvs =>
      intro u hu
      rw [stringifyMembers, List.mem_cons, List.mem_append, List.mem_cons, List.mem_append] at hu
      rcases hu with rfl | hu | rfl | hu | hu
      · decide
      · exact quote_printing k u hu
      · decide
      · exact stringify_printing v h.1 u hu
      · exact stringifyMembers_printing kvs h.2 u hu

end

theorem stringifyMembers_last (kvs : List (Units × Value)) : (stringifyMembers F kvs).getLast? = some 0x7D := by
  induction kvs with
  | nil => rfl
  | cons e kvs ih =>
      have hne : stringifyMembers F kvs ≠ [] := by
        intro h
        rw [h] at ih
        cases ih
      rw [stringifyMembers, List.getLast?_cons_of_ne_nil (by simp), List.getLast?_append_of_ne_nil _ (by simp),
        List.getLast?_cons_of_ne_nil (by simp [hne]), List.getLast?_append_of_ne_nil _ hne, ih]

theorem trimmed_obj (kvs : List (Units × Value)) : stringify F (.obj kvs) ≠ [] ∧ Trimmed (stringify F (.obj kvs)) := by
  cases kvs with
  | nil =>
      refine ⟨by simp [stringify], fun u hu => ?_, fun u hu => ?_⟩
      all_goals
        rw [stringify] at hu
        obtain rfl := Option.some.inj hu
        decide
  | cons e kvs =>
      obtain ⟨k, v⟩ := e
      have hlast := stringifyMembers_last (F := F) kvs
      have hne : stringifyMembers F kvs ≠ [] := by
        intro h
        rw [h] at hlast
        cases hlast
      refine ⟨by simp [stringify], fun u hu => ?_, fun u hu => ?_⟩
      · rw [stringify] at hu
        obtain rfl := Option.some.inj hu
        decide
      · rw [stringify, List.getLast?_cons_of_ne_nil (by simp), List.getLast?_append_of_ne_nil _ (by simp),
          List.getLast?_cons_of_ne_nil (by simp [hne]), List.getLast?_append_of_ne_nil _ hne, hlast] at hu
        obtain rfl := Option.some.inj hu
        decide

end EncedoChat.JsonText
