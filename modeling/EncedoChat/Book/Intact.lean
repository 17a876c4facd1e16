import EncedoChat.Book.Sealed

/-!
# The contact book across sign-ins

What a sign-in makes of a text depends on whether the identity wrote it; and once the marker stands, a text that it wrote
is the last one, or nobody could have put it there.
-/

namespace EncedoChat.Book.World

variable {T Ct Mac Body : Type} [DecidableEq Ct] [DecidableEq Mac] [DecidableEq Body] {F : Format T Ct Mac Body}
  {w : World T} {o : Origin F}

/-! ## What a sign-in makes of a text -/

theorem keyed_openLocal_none {ct : Ct} {t : T} (hview : F.view t = .blob (some ct)) (h : ¬ w.Wrote F t) :
    (w.keyed F).openLocal ct = none := by
  have hnone : w.writes.find? (fun x => F.view x.1 = .blob (some ct)) = none := by
    rw [List.find?_eq_none]
    intro x hx hblob
    exact h ⟨x, hx, (of_decide_eq_true hblob).trans hview.symm⟩
  simp only [keyed, hnone, Option.map_none]

theorem keyed_openLocal_head {ct : Ct} {x : T × List Entry} {rest : List (T × List Entry)} (hw : w.writes = x :: rest)
    (hview : F.view x.1 = .blob (some ct)) : (w.keyed F).openLocal ct = some x.2 := by
  have hsome : w.writes.find? (fun x => F.view x.1 = .blob (some ct)) = some x := by
    rw [hw, List.find?_cons_of_pos (by simpa using hview)]
  simp only [keyed, hsome, Option.map_some]

theorem keyed_verify {mac : Mac} {body : Body} {t : T} (hview : F.view t = .packing mac body) :
    (w.keyed F).verify mac body = true ↔ w.Wrote F t := by
  simp only [keyed, List.any_eq_true, decide_eq_true_eq, Wrote, hview]

/-- A text that the identity did not write, where the marker stands. -/
theorem opened_foreign {t : T} (hbook : w.book = some t) (hmarked : w.marked = true) (h : ¬ w.Wrote F t) :
    w.opened F = ⟨.tampered, [], false, false⟩ := by
  unfold opened Format.openLocalBook
  rw [hbook, Option.map_some]
  cases hview : F.view t with
  | blob ct =>
      cases ct with
      | none => rfl
      | some ct => simp only [Option.bind_some, keyed_openLocal_none hview h]
  | array list => simp [Format.checkBook, Format.unpack, hview, hmarked]
  | object => simp [Format.checkBook, Format.unpack, hview, hmarked]
  | packing mac body =>
      have hfalse : (w.keyed F).verify mac body = false := by
        rw [← Bool.not_eq_true, keyed_verify hview]
        exact h
      simp [Format.checkBook, Format.unpack, hview, hfalse]

theorem opened_none (hbook : w.book = none) (hmarked : w.marked = false) : w.opened F = ⟨.unsigned, [], false, false⟩ := by
  simp [opened, Format.openLocalBook, Format.checkBook, Format.unpack, hbook, hmarked]

/-- The last text that the identity wrote: it is opened, or accepted and sealed. -/
theorem opened_own {t : T} {x : T × List Entry} {rest : List (T × List Entry)} (hbook : w.book = some t)
    (hw : w.writes = x :: rest) (hview : F.view x.1 = F.view t) (hdenotes : Denotes F x.1 x.2)
    (harray : w.marked = true → ∀ l, F.view x.1 ≠ .array l) :
    (w.opened F).verdict ≠ .tampered ∧ (w.opened F).list = x.2 ∧
      ((w.opened F).mark = true → ∃ ct, F.view x.1 = .blob ct) := by
  unfold Denotes at hdenotes
  unfold opened Format.openLocalBook
  rw [hbook, Option.map_some, ← hview]
  cases hx : F.view x.1 with
  | blob ct =>
      rw [hx] at hdenotes
      obtain ⟨ct, rfl⟩ := Option.isSome_iff_exists.mp hdenotes
      simp only [Option.bind_some, keyed_openLocal_head hw hx]
      exact ⟨nofun, trivial, fun _ => ⟨_, rfl⟩⟩
  | array list =>
      rw [hx] at hdenotes
      have hmarked : w.marked = false := by
        rw [← Bool.not_eq_true]
        exact fun hm => harray hm list hx
      simp [Format.checkBook, Format.unpack, ← hview, hx, hmarked, hdenotes]
  | object =>
      rw [hx] at hdenotes
      exact hdenotes.elim
  | packing mac body =>
      rw [hx] at hdenotes
      have hverify : (w.keyed F).verify mac body = true :=
        (keyed_verify (hview.symm.trans hx)).mpr ⟨x, hw ▸ List.mem_cons_self, hview⟩
      simp [Format.checkBook, Format.unpack, ← hview, hx, hverify, hdenotes]

omit [DecidableEq Ct] [DecidableEq Mac] [DecidableEq Body] in
/-- A book that failed its check is not sealed at once. -/
theorem not_migrate (F : Format T Ct Mac Body) {K : Keyed Ct Mac Body} {raw : Option T} {marked : Bool}
    (h : (F.openLocalBook K raw marked).verdict = .tampered) : (F.openLocalBook K raw marked).migrate = false := by
  revert h
  unfold Format.openLocalBook
  split
  · split <;> exact fun _ => rfl
  · dsimp only
    generalize (if (F.checkBook K raw).1 = .unsigned ∧ marked = true then Verdict.tampered else _) = verdict
    by_cases hverdict : verdict = .tampered
    · simp only [if_pos hverdict, implies_true]
    · simp only [if_neg hverdict]
      exact fun h => absurd h hverdict

/-! ## What every step keeps -/

structure Inv (F : Format T Ct Mac Body) (w : World T) : Prop where
  denotes : ∀ x ∈ w.writes, Denotes F x.1 x.2
  current : ∀ t, w.book = some t → w.Wrote F t → ∃ x rest, w.writes = x :: rest ∧ F.view x.1 = F.view t
  absent : w.book = none → w.writes = [] ∧ w.marked = false
  unmarked : w.marked = false → ∀ t, w.book = some t → w.Wrote F t
  guarded : w.marked = true → ∃ x rest, w.writes = x :: rest ∧ ∀ l, F.view x.1 ≠ .array l
  refused : ∀ s, w.session = some s → s.verdict = .tampered → s.pending = []
  ordered : ∃ p, (w.landed ++ p).Sublist w.made ∧ ∀ s, w.session = some s → s.pending = p
  numbered : w.made.map Prod.fst = List.range w.made.length

omit [DecidableEq Ct] [DecidableEq Mac] [DecidableEq Body] in
theorem Inv.start (o : Origin F) : Inv F (start o) where
  denotes := o.denotes
  current t ht _ := by
    obtain ⟨x, hx, rfl⟩ := Option.map_eq_some_iff.mp ht
    obtain ⟨rest, hrest⟩ := List.head?_eq_some_iff.mp hx
    exact ⟨x, rest, hrest, rfl⟩
  absent h := by
    have hnil := List.head?_eq_none_iff.mp (Option.map_eq_none_iff.mp h)
    refine ⟨hnil, Bool.not_eq_true _ |>.mp fun hm => ?_⟩
    obtain ⟨x, rest, hw, -⟩ := o.guarded hm
    rw [hnil] at hw
    cases hw
  unmarked _ t ht := by
    obtain ⟨x, hx, rfl⟩ := Option.map_eq_some_iff.mp ht
    exact ⟨x, List.mem_of_mem_head? hx, rfl⟩
  guarded := o.guarded
  refused s hs := by cases hs
  ordered := ⟨[], .slnil, fun s hs => by cases hs⟩
  numbered := rfl

/-- What a sign-in gives, text by text. -/
theorem Inv.opened (h : Inv F w) :
    (∀ t, w.book = some t → ¬ w.Wrote F t → w.opened F = ⟨.tampered, [], false, false⟩) ∧
      ((∀ t, w.book = some t → w.Wrote F t) → (w.opened F).verdict ≠ .tampered ∧ (w.opened F).list = w.last ∧
        ((w.opened F).mark = true → ∃ x rest ct, w.writes = x :: rest ∧ F.view x.1 = .blob ct)) := by
  constructor
  · intro t ht hforeign
    refine opened_foreign ht ?_ hforeign
    rw [← Bool.not_eq_false]
    exact fun hm => hforeign (h.unmarked hm t ht)
  · intro hown
    cases hbook : w.book with
    | none =>
        obtain ⟨hnil, hm⟩ := h.absent hbook
        rw [opened_none hbook hm, last, hnil]
        exact ⟨nofun, rfl, nofun⟩
    | some t =>
        obtain ⟨x, rest, hw, hview⟩ := h.current t hbook (hown t hbook)
        have harray : w.marked = true → ∀ l, F.view x.1 ≠ .array l := by
          intro hm
          obtain ⟨y, rest', hw', hy⟩ := h.guarded hm
          obtain ⟨rfl, -⟩ := List.cons.inj (hw.symm.trans hw')
          exact hy
        obtain ⟨hverdict, hlist, hmark⟩ := opened_own hbook hw hview (h.denotes x (hw ▸ List.mem_cons_self)) harray
        refine ⟨hverdict, ?_, fun hm => ?_⟩
        · rw [hlist, last, hw]
          rfl
        · obtain ⟨ct, hct⟩ := hmark hm
          exact ⟨x, rest, ct, hw, hct⟩

theorem Inv.intact (h : Inv F w) : w.Intact F where
  foreign t ht hforeign := by
    rw [h.opened.1 t ht hforeign]
    exact ⟨rfl, rfl⟩
  own hown := ⟨(h.opened.2 hown).1, (h.opened.2 hown).2.1⟩
  refused s hs hverdict := by
    refine ⟨h.refused s hs hverdict, fun op => ?_⟩
    simp only [edit, hs, hverdict, if_true]
  ordered := by
    obtain ⟨p, hsub, -⟩ := h.ordered
    exact ⟨(List.sublist_append_left _ _).trans hsub, h.numbered⟩

theorem numbered_append {made : List Snapshot} (h : made.map Prod.fst = List.range made.length) (l : List Entry) :
    (made ++ [(made.length, l)]).map Prod.fst = List.range (made ++ [(made.length, l)]).length := by
  rw [List.map_append, h, List.length_append, List.length_singleton, List.range_succ]
  rfl

theorem Inv.signIn (h : Inv F w) : Inv F (w.signIn F) where
  denotes := h.denotes
  current := h.current
  absent hbook := by
    obtain ⟨hnil, hm⟩ := h.absent hbook
    have hmark : (w.opened F).mark = false := by rw [opened_none (w := w) hbook hm]
    refine ⟨hnil, ?_⟩
    simp only [World.signIn, hm, hmark, Bool.or_false]
  unmarked hm := h.unmarked (Bool.or_eq_false_iff.mp hm).1
  guarded hm := by
    rcases Bool.or_eq_true_iff.mp hm with hm | hmark
    · exact h.guarded hm
    · by_cases hown : ∀ t, w.book = some t → w.Wrote F t
      · obtain ⟨x, rest, ct, hw, hct⟩ := (h.opened.2 hown).2.2 hmark
        exact ⟨x, rest, hw, fun l => by rw [hct]; nofun⟩
      · simp only [not_forall] at hown
        obtain ⟨t, ht, hforeign⟩ := hown
        rw [h.opened.1 t ht hforeign] at hmark
        cases hmark
  refused s hs hverdict := by
    obtain rfl := Option.some.inj hs
    have hmigrate := not_migrate F hverdict
    show (if (w.opened F).migrate = true then _ else []) = _
    rw [show (w.opened F).migrate = false from hmigrate]
    rfl
  ordered := by
    obtain ⟨p, hsub, -⟩ := h.ordered
    refine ⟨_, ((List.sublist_append_left _ p).trans hsub).append (.refl _), fun s hs => ?_⟩
    obtain rfl := Option.some.inj hs
    rfl
  numbered := by
    show (w.made ++ if (w.opened F).migrate = true then _ else []).map Prod.fst = _
    simp only [World.signIn]
    split
    · exact numbered_append h.numbered _
    · rw [List.append_nil]
      exact h.numbered

omit [DecidableEq Ct] [DecidableEq Mac] [DecidableEq Body] in
theorem Inv.edit (h : Inv F w) (op : Op) : Inv F (w.edit op) := by
  unfold World.edit
  cases hs : w.session with
  | none => exact h
  | some s =>
      dsimp only
      split
      · exact h
      case isFalse hverdict =>
        refine { h with refused := ?_, ordered := ?_, numbered := numbered_append h.numbered _ }
        · intro s' hs' hv
          obtain rfl := Option.some.inj hs'
          exact absurd hv hverdict
        · obtain ⟨p, hsub, hp⟩ := h.ordered
          refine ⟨p ++ [(w.made.length, op.saved s.list)], ?_, fun s' hs' => ?_⟩
          · rw [← List.append_assoc]
            exact hsub.append (.refl _)
          · obtain rfl := Option.some.inj hs'
            rw [hp s hs]

omit [DecidableEq Ct] [DecidableEq Mac] [DecidableEq Body] in
/-- A sealed book is stored. -/
theorem Inv.kept (h : Inv F w) {ct : Ct} {x : Snapshot} {s : Session} {rest : List Snapshot} (hs : w.session = some s)
    (hpending : s.pending = x :: rest) (hverdict : s.verdict ≠ .tampered) (marked : Bool) :
    Inv F { w with
      session := some ⟨s.verdict, s.list, rest⟩, book := some (F.sealedText ct), marked := marked
      writes := (F.sealedText ct, x.2) :: w.writes, landed := w.landed ++ [x] } where
  denotes y hy := by
    rcases List.mem_cons.mp hy with rfl | hy
    · rw [Denotes, F.view_sealedText]
      rfl
    · exact h.denotes y hy
  current t ht _ := ⟨_, w.writes, rfl, by rw [Option.some.inj ht]⟩
  absent hbook := by cases hbook
  unmarked _ t ht := ⟨_, List.mem_cons_self, by rw [Option.some.inj ht]⟩
  guarded _ := ⟨_, w.writes, rfl, fun l => by rw [F.view_sealedText]; nofun⟩
  refused s' hs' hv := by
    obtain rfl := Option.some.inj hs'
    exact absurd hv hverdict
  ordered := by
    obtain ⟨p, hsub, hp⟩ := h.ordered
    refine ⟨rest, ?_, fun s' hs' => ?_⟩
    · rw [← hp s hs, hpending] at hsub
      rwa [List.append_assoc]
    · obtain rfl := Option.some.inj hs'
      rfl
  numbered := h.numbered

theorem Inv.land (h : Inv F w) (ct : Ct) (outcome : Outcome) : Inv F (w.land F ct outcome) := by
  unfold World.land
  split
  case h_1 verdict list x rest hs =>
    have hverdict : verdict ≠ .tampered := fun hv => by cases h.refused _ hs hv
    cases outcome with
    | failed =>
        refine { h with refused := ?_, ordered := ?_ }
        · intro s' hs' hv
          obtain rfl := Option.some.inj hs'
          exact absurd hv hverdict
        · obtain ⟨p, hsub, hp⟩ := h.ordered
          refine ⟨rest, ?_, fun s' hs' => ?_⟩
          · rw [← hp _ hs] at hsub
            exact ((List.Sublist.refl _).append (List.sublist_cons_self x rest)).trans hsub
          · obtain rfl := Option.some.inj hs'
            rfl
    | unmarked => exact h.kept hs rfl hverdict w.marked
    | stored => exact h.kept hs rfl hverdict true
  · exact h

theorem Inv.act (h : Inv F w) (e : Event T Ct) (he : w.Guarded F e) : Inv F (w.act F e) := by
  obtain ⟨hallowed, hguard⟩ := he
  cases e with
  | signIn => exact h.signIn
  | edit op => exact h.edit op
  | land ct outcome => exact h.land ct outcome
  | attack t =>
      have hmarked : w.marked = true := hguard
      exact { h with
        current := fun t' ht' hw => by
          obtain rfl := Option.some.inj ht'
          exact hallowed hw
        absent := fun hbook => by cases hbook
        unmarked := fun hm => by
          have hfalse : w.marked = false := hm
          rw [hmarked] at hfalse
          cases hfalse }
  | mark =>
      have hsame : w.act F .mark = w := by
        have hmarked : w.marked = true := hguard
        rw [World.act, ← hmarked]
      rw [hsame]
      exact h

/-- Texts that are what they read as. -/
def bare : Format (View Nat Nat Nat) Nat Nat Nat := ⟨id, fun _ => some [], fun ct => .blob (some ct), fun _ => rfl⟩

def fresh : Origin bare := ⟨[], false, nofun, nofun⟩

def planted : View Nat Nat Nat := .array [⟨"A", "keyE"⟩]

/-- Over a book that was sealed before. -/
def overwritten : List (Event (View Nat Nat Nat) Nat) :=
  [.signIn, .edit (.add "A" "keyA"), .land 7 .stored, .attack planted, .signIn]

end EncedoChat.Book.World
