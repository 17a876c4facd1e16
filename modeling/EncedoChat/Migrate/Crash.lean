import EncedoChat.Lib.Moves
import EncedoChat.Lib.Utf16

/-!
# Storage names

`lib/storenames.ts`: the names of an identity's records, where they used to be, and `migrateToNames` as the writes it
makes to a store. It may be cut off after any of them.
-/

namespace EncedoChat.Migrate

open Moves (Write move trace applyAll)
open Units (ascii)

inductive Fixed where
  | emp | book | bookSigned | sealed | invites | waiting | ignored | outbox | prefs | seen | gleft | groups | netkey
  deriving DecidableEq

def Fixed.label : Fixed → Units
  | emp => ascii "emp"
  | book => ascii "book"
  | bookSigned => ascii "book-signed"
  | sealed => ascii "sealed"
  | invites => ascii "invites"
  | waiting => ascii "waiting"
  | ignored => ascii "ignored"
  | outbox => ascii "outbox"
  | prefs => ascii "prefs"
  | seen => ascii "seen"
  | gleft => ascii "gleft"
  | groups => ascii "groups"
  | netkey => ascii "netkey"

def isHex (u : UInt16) : Bool := (0x30 ≤ u && u ≤ 0x39) || (0x61 ≤ u && u ≤ 0x66)

/-- What names are made from, and the key of the index. -/
structure Names (ν : Type) where
  kid : Units
  idTag : Units
  /-- the hex of the first half of a MAC under the name key -/
  digest : Units → Units
  /-- `sealLocal` under the index key, with its draw -/
  sealIndex : Nat → List Units → ν
  /-- `openLocal` under the index key, and what of it is a list of strings -/
  openIndex : ν → Option (List Units)
  kid_hex : kid.length = 32 ∧ kid.all isHex = true
  tag_hex : idTag.length = 16 ∧ idTag.all isHex = true

/-- Where each record used to be. -/
def LEGACY : List (Units × Fixed) :=
  [(ascii "ec-gcache-emp-", .emp), (ascii "ec-local-contacts-", .book), (ascii "ec-sealed-", .sealed),
    (ascii "ec-invites-", .invites), (ascii "ec-waiting-", .waiting), (ascii "ec-ignored-", .ignored),
    (ascii "ec-outbox-", .outbox), (ascii "ec-prefs-", .prefs), (ascii "ec-seen-", .seen), (ascii "ec-gleft-", .gleft)]

/-- The records that move. -/
inductive Record where
  | legacy (i : Fin LEGACY.length)
  | signed
  | group (gid : Units)
  | pin (scope : Units)
  deriving DecidableEq

namespace Names

variable {ν : Type} (N : Names ν)

def start : Units := ascii "ec-" ++ N.idTag ++ ascii "-"

def name (label scope : Units) : Units := N.start ++ N.digest (label ++ 0 :: scope)

def fixed (f : Fixed) : Units := N.name f.label []

def groupName (gid : Units) : Units := N.name (ascii "group") gid

def pinName (scope : Units) : Units := N.name (ascii "pin") scope

def groupStart : Units := ascii "ec-gcache-" ++ N.kid ++ ascii "-"

def pinStart : Units := ascii "ec-pins-" ++ N.kid ++ ascii "-"

def old : Record → Units
  | .legacy i => (LEGACY.get i).1 ++ N.kid
  | .signed => ascii "ec-local-contacts-" ++ N.kid ++ ascii "-signed"
  | .group gid => N.groupStart ++ gid
  | .pin scope => N.pinStart ++ scope

def new : Record → Units
  | .legacy i => N.fixed (LEGACY.get i).2
  | .signed => N.fixed .bookSigned
  | .group gid => N.groupName gid
  | .pin scope => N.pinName scope

/-! ## The index -/

def groups (kv : OrdMap Units ν) : List Units := ((kv.get (N.fixed .groups)).bind N.openIndex).getD []

/-- The writes of `setGroups`. -/
def setGroups (canRemove : Bool) (draw : Nat) (gids : List Units) : List (Write Units ν) :=
  let list := gids.eraseDups.mergeSort (fun a b => decide (a ≤ b))
  if list.isEmpty then if canRemove then [.remove (N.fixed .groups)] else []
  else [.set (N.fixed .groups) (N.sealIndex draw list)]

/-! ## The migration -/

def ofKey (k : Units) : Option Record :=
  if N.groupStart.isPrefixOf k then some (.group (k.drop N.groupStart.length))
  else if N.pinStart.isPrefixOf k then some (.pin (k.drop N.pinStart.length))
  else none

def gidOf : Record → Option Units
  | .group gid => some gid
  | _ => none

/-- The records that have one name each. -/
def single : List Record := (List.finRange LEGACY.length).map .legacy ++ [.signed]

/-- The moves of `migrateToNames`: those of `single`, then those of the keys that the store has by then. -/
def records (canRemove : Bool) (kv : OrdMap Units ν) : List Record :=
  single ++ (applyAll kv (trace canRemove N.old N.new single kv)).keys.filterMap N.ofKey

def moveWrites (canRemove : Bool) (kv : OrdMap Units ν) : List (Write Units ν) :=
  trace canRemove N.old N.new (N.records canRemove kv) kv

/-- The ids that the moves came by. -/
def gids (canRemove : Bool) (kv : OrdMap Units ν) : List Units := (N.records canRemove kv).filterMap gidOf

/-- All that `migrateToNames` writes, in order. -/
def migrateToNames (canRemove : Bool) (kv : OrdMap Units ν) (draw : Nat) : List (Write Units ν) :=
  let ws := N.moveWrites canRemove kv
  let gids := N.gids canRemove kv
  ws ++ if gids.isEmpty then [] else N.setGroups canRemove draw (N.groups (applyAll kv ws) ++ gids)

/-- How many moved. -/
def moved (canRemove : Bool) (kv : OrdMap Units ν) : Nat :=
  (N.moveWrites canRemove kv).countP fun w =>
    match w with
    | .set _ _ => true
    | .remove _ => false

/-- The store after a migration that is cut off, and after one that is not. -/
def attempt (canRemove : Bool) (kv : OrdMap Units ν) (stop : Nat × Nat) : OrdMap Units ν :=
  applyAll kv ((N.migrateToNames canRemove kv stop.2).take stop.1)

def complete (canRemove : Bool) (kv : OrdMap Units ν) (draw : Nat) : OrdMap Units ν :=
  applyAll kv (N.migrateToNames canRemove kv draw)

end Names

end EncedoChat.Migrate

/-!
# A migration that is cut off

No two names of an identity are the same, nor is one of another identity's, so the moves may be cut off anywhere and done
again. The index is written last, from the keys of that run: what an earlier run moved is not in it.
-/

namespace EncedoChat.Migrate

open Moves (Write trace applyAll Apart held Moved LegalAll)
open Units (ascii)

/-! ## Names apart -/

namespace Record

/-- What stands before the KID in an old name. -/
def stem : Record → Units
  | .legacy i => (LEGACY.get i).1
  | .signed => ascii "ec-local-contacts-"
  | .group _ => ascii "ec-gcache-"
  | .pin _ => ascii "ec-pins-"

/-- And what stands after it. -/
def tail : Record → Units
  | .legacy _ => []
  | .signed => ascii "-signed"
  | .group gid => ascii "-" ++ gid
  | .pin scope => ascii "-" ++ scope

def label : Record → Units
  | .legacy i => (LEGACY.get i).2.label
  | .signed => Fixed.bookSigned.label
  | .group _ => ascii "group"
  | .pin _ => ascii "pin"

def scope : Record → Units
  | .legacy _ | .signed => []
  | .group gid => gid
  | .pin scope => scope

end Record

def stems : List Units := LEGACY.map Prod.fst ++ [ascii "ec-gcache-", ascii "ec-pins-"]

def labels : List Units := (LEGACY.map fun p => p.2.label) ++ [Fixed.bookSigned.label, ascii "group", ascii "pin"]

/-- Where one of them begins another, what follows cannot be a KID. -/
theorem stems_apart : ∀ a ∈ stems, ∀ b ∈ stems, a.isPrefixOf b = true → a = b ∨
    2 ≤ (b.drop a.length).length ∧ ((b.drop a.length).take 2).all isHex = false := by
  decide

theorem stems_not_hex : ∀ a ∈ stems, ∃ u, a[3]? = some u ∧ isHex u = false := by
  decide

theorem labels_nul : ∀ a ∈ Fixed.groups.label :: labels, (0 : UInt16) ∉ a := by
  decide

theorem labels_nodup : (Fixed.groups.label :: labels).Nodup := by
  decide

namespace Record

theorem stem_mem (r : Record) : r.stem ∈ stems := by
  cases r with
  | legacy i => exact List.mem_append_left _ (List.mem_map_of_mem (List.get_mem LEGACY i))
  | signed => exact List.mem_append_left _ (by decide)
  | group gid => exact List.mem_append_right _ List.mem_cons_self
  | pin scope => exact List.mem_append_right _ (List.mem_cons_of_mem _ List.mem_cons_self)

theorem label_mem (r : Record) : r.label ∈ labels := by
  cases r with
  | legacy i => exact List.mem_append_left _ (List.mem_map_of_mem (f := fun p => p.2.label) (List.get_mem LEGACY i))
  | signed => exact List.mem_append_right _ List.mem_cons_self
  | group gid => exact List.mem_append_right _ (List.mem_cons_of_mem _ List.mem_cons_self)
  | pin scope =>
      exact List.mem_append_right _ (List.mem_cons_of_mem _ (List.mem_cons_of_mem _ List.mem_cons_self))

theorem legacy_inj : ∀ i j : Fin LEGACY.length, (LEGACY.get i).1 = (LEGACY.get j).1 → i = j := by
  decide

theorem legacy_label_inj : ∀ i j : Fin LEGACY.length, (LEGACY.get i).2.label = (LEGACY.get j).2.label → i = j := by
  decide

theorem legacy_label : ∀ i : Fin LEGACY.length, (LEGACY.get i).2.label ≠ Fixed.bookSigned.label ∧
    (LEGACY.get i).2.label ≠ ascii "group" ∧ (LEGACY.get i).2.label ≠ ascii "pin" := by
  decide

theorem ascii_dash : ascii "-" = [0x2D] := by
  decide

theorem stems_differ : ascii "ec-local-contacts-" ≠ ascii "ec-gcache-" ∧ ascii "ec-local-contacts-" ≠ ascii "ec-pins-" ∧
    ascii "ec-gcache-" ≠ ascii "ec-pins-" := by
  decide

theorem labels_differ : Fixed.bookSigned.label ≠ ascii "group" ∧ Fixed.bookSigned.label ≠ ascii "pin" ∧
    ascii "group" ≠ ascii "pin" := by
  decide

theorem signed_ne : ascii "-signed" ≠ [] := by
  decide

theorem dash_ne (s : Units) : ascii "-" ++ s ≠ [] := by
  rw [ascii_dash]
  exact List.cons_ne_nil _ _

/-- A record is told by what stands before and after the KID. -/
theorem eq_of_stem_tail {r r' : Record} (hs : r.stem = r'.stem) (ht : r.tail = r'.tail) : r = r' := by
  obtain ⟨hlg, hlp, hgp⟩ := stems_differ
  cases r with
  | legacy i =>
      cases r' with
      | legacy j => rw [legacy_inj i j hs]
      | signed => exact absurd ht.symm signed_ne
      | group gid => exact absurd ht.symm (dash_ne _)
      | pin scope => exact absurd ht.symm (dash_ne _)
  | signed =>
      cases r' with
      | legacy j => exact absurd ht signed_ne
      | signed => rfl
      | group gid => exact absurd hs hlg
      | pin scope => exact absurd hs hlp
  | group gid =>
      cases r' with
      | legacy j => exact absurd ht (dash_ne _)
      | signed => exact absurd hs.symm hlg
      | group gid' => rw [List.append_cancel_left (show ascii "-" ++ gid = ascii "-" ++ gid' from ht)]
      | pin scope => exact absurd hs hgp
  | pin scope =>
      cases r' with
      | legacy j => exact absurd ht (dash_ne _)
      | signed => exact absurd hs.symm hlp
      | group gid => exact absurd hs.symm hgp
      | pin scope' => rw [List.append_cancel_left ht]

/-- And by its label and scope. -/
theorem eq_of_label_scope {r r' : Record} (hl : r.label = r'.label) (hs : r.scope = r'.scope) : r = r' := by
  obtain ⟨hsg, hsp, hgp⟩ := labels_differ
  cases r with
  | legacy i =>
      obtain ⟨hs', hg, hp⟩ := legacy_label i
      cases r' with
      | legacy j => rw [legacy_label_inj i j hl]
      | signed => exact absurd hl hs'
      | group gid => exact absurd hl hg
      | pin scope => exact absurd hl hp
  | signed =>
      cases r' with
      | legacy j => exact absurd hl.symm (legacy_label j).1
      | signed => rfl
      | group gid => exact absurd hl hsg
      | pin scope => exact absurd hl hsp
  | group gid =>
      cases r' with
      | legacy j => exact absurd hl.symm (legacy_label j).2.1
      | signed => exact absurd hl.symm hsg
      | group gid' => exact congrArg Record.group hs
      | pin scope => exact absurd hl hgp
  | pin scope =>
      cases r' with
      | legacy j => exact absurd hl.symm (legacy_label j).2.2
      | signed => exact absurd hl.symm hsp
      | group gid => exact absurd hl.symm hgp
      | pin scope' => exact congrArg Record.pin hs

end Record

/-- What stands before the first zero. -/
theorem eq_of_nul {a b s t : Units} (ha : (0 : UInt16) ∉ a) (hb : (0 : UInt16) ∉ b) (h : a ++ 0 :: s = b ++ 0 :: t) :
    a = b ∧ s = t := by
  induction a generalizing b with
  | nil =>
      cases b with
      | nil => exact ⟨rfl, (List.cons.inj h).2⟩
      | cons u b => exact absurd (List.cons.inj h).1 fun hu => hb (hu ▸ List.mem_cons_self)
  | cons u a ih =>
      cases b with
      | nil => exact absurd (List.cons.inj h).1 fun hu => ha (hu ▸ List.mem_cons_self)
      | cons v b =>
          obtain ⟨huv, htail⟩ := List.cons.inj h
          obtain ⟨hab, hst⟩ := ih (fun hin => ha (List.mem_cons_of_mem _ hin)) (fun hin => hb (List.mem_cons_of_mem _ hin)) htail
          exact ⟨by rw [huv, hab], hst⟩

namespace Names

variable {ν : Type} {N N' : Names ν}

theorem old_eq (N : Names ν) (r : Record) : N.old r = r.stem ++ (N.kid ++ r.tail) := by
  cases r with
  | legacy i => exact congrArg (_ ++ ·) (List.append_nil _).symm
  | signed => exact List.append_assoc ..
  | group gid => simp [old, groupStart, Record.stem, Record.tail]
  | pin scope => simp [old, pinStart, Record.stem, Record.tail]

theorem new_eq (N : Names ν) (r : Record) : N.new r = N.name r.label r.scope := by
  cases r <;> rfl

/-- Two KIDs after two stems: the stems are the same. -/
theorem stem_eq_of_starts {a b k k' : Units} (ha : a ∈ stems) (hb : b ∈ stems) (hk : 2 ≤ k.length) (hhex : k.all isHex = true)
    {s s' : Units} (hpre : a <+: b) (h : a ++ (k ++ s) = b ++ (k' ++ s')) : a = b := by
  rcases stems_apart a ha b hb (List.isPrefixOf_iff_prefix.mpr hpre) with heq | ⟨hlen, hnot⟩
  · exact heq
  · obtain ⟨x, rfl⟩ := hpre
    rw [List.drop_left' rfl] at hlen hnot
    rw [List.append_assoc, List.append_cancel_left_eq] at h
    have htake : x.take 2 = k.take 2 := by
      have h2 := congrArg (List.take 2) h
      rwa [List.take_append_of_le_length hk, List.take_append_of_le_length hlen, eq_comm] at h2
    rw [htake] at hnot
    have hall : (k.take 2).all isHex = true := by
      rw [List.all_eq_true] at hhex ⊢
      exact fun u hu => hhex u (List.mem_of_mem_take hu)
    rw [hall] at hnot
    cases hnot

/-- The old names of an identity are all different, and those of two have nothing in common. -/
theorem old_inj {r r' : Record} (h : N.old r = N'.old r') : N.kid = N'.kid ∧ r = r' := by
  rw [old_eq, old_eq] at h
  have hk : 2 ≤ N.kid.length := by rw [N.kid_hex.1]; decide
  have hk' : 2 ≤ N'.kid.length := by rw [N'.kid_hex.1]; decide
  have hstem : r.stem = r'.stem := by
    have hl : r.stem <+: r'.stem ++ (N'.kid ++ r'.tail) := h ▸ List.prefix_append _ _
    rcases List.prefix_or_prefix_of_prefix hl (List.prefix_append _ _) with hp | hp
    · exact stem_eq_of_starts r.stem_mem r'.stem_mem hk N.kid_hex.2 hp h
    · exact (stem_eq_of_starts r'.stem_mem r.stem_mem hk' N'.kid_hex.2 hp h.symm).symm
  rw [hstem, List.append_cancel_left_eq] at h
  obtain ⟨hkid, htail⟩ := List.append_inj h (N.kid_hex.1.trans N'.kid_hex.1.symm)
  exact ⟨hkid, Record.eq_of_stem_tail hstem htail⟩

/-- A name is told by its label and its scope. -/
theorem name_inj (hmac : Function.Injective N.digest) {l l' s s' : Units} (hl : l ∈ Fixed.groups.label :: labels)
    (hl' : l' ∈ Fixed.groups.label :: labels) (h : N.name l s = N.name l' s') : l = l' ∧ s = s' :=
  eq_of_nul (labels_nul l hl) (labels_nul l' hl') (hmac (List.append_cancel_left h))

theorem new_inj (hmac : Function.Injective N.digest) : Function.Injective N.new := by
  intro r r' h
  rw [new_eq, new_eq] at h
  obtain ⟨hl, hs⟩ := name_inj hmac (List.mem_cons_of_mem _ r.label_mem) (List.mem_cons_of_mem _ r'.label_mem) h
  exact Record.eq_of_label_scope hl hs

theorem ascii_ec : ascii "ec-" = [0x65, 0x63, 0x2D] := by
  decide

/-- The fourth character tells an old name from a new one. -/
theorem start_at (N : Names ν) (s : Units) : ∃ u, (N.start ++ s)[3]? = some u ∧ isHex u = true := by
  obtain ⟨hlen, hall⟩ := N.tag_hex
  cases htag : N.idTag with
  | nil =>
      rw [htag] at hlen
      cases hlen
  | cons u tag =>
      refine ⟨u, ?_, ?_⟩
      · simp [start, ascii_ec, htag]
      · rw [htag, List.all_cons, Bool.and_eq_true] at hall
        exact hall.1

theorem old_at (N : Names ν) (r : Record) : ∃ u, (N.old r)[3]? = some u ∧ isHex u = false := by
  obtain ⟨u, hu, hhex⟩ := stems_not_hex r.stem r.stem_mem
  have hlt : 3 < r.stem.length := (List.getElem?_eq_some_iff.mp hu).1
  exact ⟨u, by rw [old_eq, List.getElem?_append_left hlt, hu], hhex⟩

theorem old_ne_start (r : Record) (s : Units) : N.old r ≠ N'.start ++ s := by
  intro h
  obtain ⟨u, hu, hhex⟩ := N.old_at r
  obtain ⟨u', hu', hhex'⟩ := N'.start_at s
  rw [h, hu', Option.some.injEq] at hu
  rw [← hu, hhex'] at hhex
  cases hhex

theorem new_start (N : Names ν) (r : Record) : ∃ s, N.new r = N.start ++ s :=
  ⟨_, N.new_eq r⟩

theorem start_inj {s s' : Units} (h : N.start ++ s = N'.start ++ s') : N.idTag = N'.idTag := by
  simp only [start, List.append_assoc, List.append_cancel_left_eq] at h
  exact (List.append_inj h (N.tag_hex.1.trans N'.tag_hex.1.symm)).1

theorem apart (hmac : Function.Injective N.digest) : Apart N.old N.new where
  old_inj r r' h := (old_inj h).2
  new_inj := new_inj hmac
  disjoint r r' h := by
    obtain ⟨s, hs⟩ := N.new_start r'
    exact old_ne_start r s (h.trans hs)

theorem index_ne_old (N : Names ν) (r : Record) : N.fixed .groups ≠ N.old r :=
  fun h => old_ne_start r _ h.symm

theorem index_ne_new (hmac : Function.Injective N.digest) (r : Record) : N.fixed .groups ≠ N.new r := by
  intro h
  rw [new_eq] at h
  obtain ⟨hl, -⟩ := name_inj hmac List.mem_cons_self (List.mem_cons_of_mem _ r.label_mem) h
  exact (List.nodup_cons.mp labels_nodup).1 (hl ▸ r.label_mem)

/-! ## The plan -/

theorem ofKey_old {r : Record} (hr : r ∉ single) : N.ofKey (N.old r) = some r := by
  cases r with
  | legacy i => exact absurd (List.mem_append_left _ (List.mem_map_of_mem (List.mem_finRange i))) hr
  | signed => exact absurd (List.mem_append_right _ List.mem_cons_self) hr
  | group gid =>
      have hpre : N.groupStart.isPrefixOf (N.groupStart ++ gid) = true :=
        List.isPrefixOf_iff_prefix.mpr (List.prefix_append _ _)
      rw [ofKey, old, if_pos hpre, List.drop_left]
  | pin scope =>
      have hnot : ¬ N.groupStart.isPrefixOf (N.pinStart ++ scope) = true := by
        intro hpre
        obtain ⟨s, hs⟩ := List.isPrefixOf_iff_prefix.mp hpre
        have heq : N.old (.group s) = N.old (.pin scope) := hs
        cases (old_inj heq).2
      have hpre : N.pinStart.isPrefixOf (N.pinStart ++ scope) = true :=
        List.isPrefixOf_iff_prefix.mpr (List.prefix_append _ _)
      rw [ofKey, old, if_neg hnot, if_pos hpre, List.drop_left]

theorem group_not_single (g : Units) : Record.group g ∉ single := by
  simp [single]

theorem pin_not_single (s : Units) : Record.pin s ∉ single := by
  simp [single]

theorem old_ofKey {k : Units} {r : Record} (h : N.ofKey k = some r) : N.old r = k ∧ r ∉ single := by
  rw [ofKey] at h
  split at h
  next hpre =>
    obtain ⟨s, rfl⟩ := List.isPrefixOf_iff_prefix.mp hpre
    rw [List.drop_left] at h
    cases h
    exact ⟨rfl, group_not_single s⟩
  next =>
    split at h
    next hpre =>
      obtain ⟨s, rfl⟩ := List.isPrefixOf_iff_prefix.mp hpre
      rw [List.drop_left] at h
      cases h
      exact ⟨rfl, pin_not_single s⟩
    next => cases h

variable {c : Bool} {kv : OrdMap Units ν}

/-- The first moves leave the names of the others as they are. -/
theorem get_single (hmac : Function.Injective N.digest) {r : Record} (hr : r ∉ single) :
    (applyAll kv (trace c N.old N.new single kv)).get (N.old r) = kv.get (N.old r) := by
  refine Moves.trace_other single (fun r' hr' => ⟨?_, (apart hmac).disjoint r r'⟩) kv
  exact fun h => hr ((old_inj h).2 ▸ hr')

/-- The plan has every record that is under its old name. -/
theorem mem_records (hmac : Function.Injective N.digest) {r : Record} (hr : r ∉ single) :
    r ∈ N.records c kv ↔ (kv.get (N.old r)).isSome := by
  rw [records, List.mem_append, List.mem_filterMap, ← get_single (c := c) hmac hr, Option.isSome_iff_exists]
  constructor
  · rintro (hin | ⟨k, hk, hof⟩)
    · exact absurd hin hr
    · rw [(old_ofKey hof).1]
      exact OrdMap.mem_keys.mp hk
  · exact fun hs => .inr ⟨N.old r, OrdMap.mem_keys.mpr hs, ofKey_old hr⟩

theorem mem_gids (hmac : Function.Injective N.digest) {g : Units} :
    g ∈ N.gids c kv ↔ (kv.get (N.old (.group g))).isSome := by
  rw [gids, List.mem_filterMap, ← mem_records (c := c) hmac (group_not_single g)]
  constructor
  · rintro ⟨r, hr, hg⟩
    cases r with
    | group g' =>
        cases hg
        exact hr
    | legacy i => cases hg
    | signed => cases hg
    | pin s => cases hg
  · exact fun hr => ⟨_, hr, rfl⟩

/-- The moves move every record. -/
theorem moved_all (hmac : Function.Injective N.digest) (c : Bool) (kv : OrdMap Units ν) (r : Record) :
    Moved c N.old N.new (applyAll kv (N.moveWrites c kv)) r := by
  have hA := apart hmac
  by_cases hr : r ∈ N.records c kv
  · exact Moves.moved_trace hA c _ kv hr
  · have hsingle : r ∉ single := fun hin => hr (List.mem_append_left _ hin)
    have hnone : kv.get (N.old r) = none := by
      rw [mem_records hmac hsingle, Option.isSome_iff_ne_none, not_not] at hr
      exact hr
    have hMoved : Moved c N.old N.new kv r := ⟨(Moves.get_new_iff r).mpr (.inr hnone), fun _ => hnone⟩
    exact hMoved.applyAll hA (Moves.legal_trace hA c _ kv)

/-! ## One attempt -/

/-- Where a group is known from: the index, or a key. -/
def Known (N : Names ν) (m : OrdMap Units ν) (g : Units) : Prop :=
  g ∈ N.groups m ∨ (m.get (N.old (.group g))).isSome

theorem groups_congr {m m' : OrdMap Units ν} (h : m.get (N.fixed .groups) = m'.get (N.fixed .groups)) :
    N.groups m = N.groups m' := by
  rw [groups, groups, h]

/-- The index that is written. -/
def listing (N : Names ν) (c : Bool) (kv : OrdMap Units ν) : List Units :=
  (N.groups (applyAll kv (N.moveWrites c kv)) ++ N.gids c kv).eraseDups.mergeSort (fun a b => decide (a ≤ b))

section Digest

variable (hmac : Function.Injective N.digest)
include hmac

theorem groups_legal {ws : List (Write Units ν)}
    (hws : LegalAll N.old N.new kv ws) : N.groups (applyAll kv ws) = N.groups kv :=
  groups_congr (hws.other N.index_ne_old (index_ne_new hmac))

theorem legal_moveWrites (c : Bool) (kv : OrdMap Units ν) :
    LegalAll N.old N.new kv (N.moveWrites c kv) :=
  Moves.legal_trace (apart hmac) c _ kv

theorem mem_listing {g : Units} : g ∈ N.listing c kv ↔ N.Known kv g := by
  rw [listing, List.mem_mergeSort, List.mem_eraseDups, List.mem_append, groups_legal hmac (legal_moveWrites hmac c kv),
    mem_gids hmac, Known]

theorem indexWrites (c : Bool) (kv : OrdMap Units ν) (draw : Nat) :
    N.migrateToNames c kv draw = N.moveWrites c kv ++
      if (N.gids c kv).isEmpty then [] else [.set (N.fixed .groups) (N.sealIndex draw (N.listing c kv))] := by
  rw [migrateToNames]
  congr 1
  split
  next => rfl
  next hne =>
    have hsome : N.listing c kv ≠ [] := by
      obtain ⟨g, hg⟩ := List.exists_mem_of_ne_nil _ (fun h => hne (List.isEmpty_iff.mpr h))
      exact List.ne_nil_of_mem ((mem_listing hmac).mpr (.inr ((mem_gids hmac).mp hg)))
    rw [setGroups, ← listing]
    rw [if_neg (by rwa [List.isEmpty_iff])]

/-- A migration that is not cut off makes the moves; off the index it does nothing else. -/
theorem complete_get (draw : Nat) {k : Units} (hk : k ≠ N.fixed .groups) :
    (N.complete c kv draw).get k = (applyAll kv (N.moveWrites c kv)).get k := by
  rw [complete, indexWrites hmac, applyAll, List.foldl_append]
  split
  next => rfl
  next => exact OrdMap.get_set_ne _ _ hk

theorem mem_groups_complete (hseal : ∀ d l, N.openIndex (N.sealIndex d l) = some l)
    (draw : Nat) {g : Units} : g ∈ N.groups (N.complete c kv draw) ↔ N.Known kv g := by
  rw [complete, indexWrites hmac, applyAll, List.foldl_append]
  split
  next hempty =>
    have hg : ¬ (kv.get (N.old (.group g))).isSome = true := by
      rw [← mem_gids (c := c) hmac, List.isEmpty_iff.mp hempty]
      exact List.not_mem_nil
    have hgroups : N.groups (List.foldl Write.apply kv (N.moveWrites c kv)) = N.groups kv :=
      groups_legal hmac (legal_moveWrites hmac c kv)
    rw [List.foldl_nil, hgroups, Known]
    exact ⟨.inl, fun h => h.resolve_right hg⟩
  next =>
    rw [List.foldl_cons, List.foldl_nil, Write.apply, groups, OrdMap.get_set_self, Option.bind_some, hseal,
      Option.getD_some, mem_listing hmac]

/-- What is cut off is cut off among the moves. -/
theorem take_writes {n draw : Nat}
    (h : ¬ (N.migrateToNames c kv draw).length ≤ n) :
    (N.migrateToNames c kv draw).take n = (N.moveWrites c kv).take n := by
  rw [indexWrites hmac] at h ⊢
  refine List.take_append_of_le_length ?_
  rw [List.length_append] at h
  split at h
  · rw [List.length_nil] at h
    omega
  · rw [List.length_singleton] at h
    omega

theorem attempt_eq (c : Bool) (kv : OrdMap Units ν) (stop : Nat × Nat) :
    N.attempt c kv stop = if (N.migrateToNames c kv stop.2).length ≤ stop.1 then N.complete c kv stop.2
      else applyAll kv ((N.moveWrites c kv).take stop.1) := by
  rw [attempt, complete]
  split
  next hle => rw [List.take_of_length_le hle]
  next hlt => rw [take_writes hmac hlt]

/-- Off the index an attempt is a number of moves. -/
theorem attempt_get (c : Bool) (kv : OrdMap Units ν) (stop : Nat × Nat) :
    ∃ ws, LegalAll N.old N.new kv ws ∧ ∀ k, k ≠ N.fixed .groups → (N.attempt c kv stop).get k = (applyAll kv ws).get k := by
  have hlegal := legal_moveWrites hmac c kv
  rw [attempt_eq hmac]
  split
  next => exact ⟨_, hlegal, fun k hk => complete_get hmac stop.2 hk⟩
  next => exact ⟨_, hlegal.take stop.1, fun k _ => rfl⟩

theorem held_congr {m m' : OrdMap Units ν}
    (h : ∀ k, k ≠ N.fixed .groups → m.get k = m'.get k) (r : Record) : held N.old N.new m r = held N.old N.new m' r := by
  rw [held, held, h _ (index_ne_old N r).symm, h _ (index_ne_new hmac r).symm]

theorem held_attempt (stop : Nat × Nat) (r : Record) :
    held N.old N.new (N.attempt c kv stop) r = held N.old N.new kv r := by
  obtain ⟨ws, hws, hget⟩ := attempt_get hmac c kv stop
  exact (held_congr hmac hget r).trans (hws.held (apart hmac) r)

theorem other_attempt (stop : Nat × Nat) {k : Units} (hold : ∀ r, k ≠ N.old r)
    (hnew : ∀ r, k ≠ N.new r) (hk : k ≠ N.fixed .groups) : (N.attempt c kv stop).get k = kv.get k := by
  obtain ⟨ws, hws, hget⟩ := attempt_get hmac c kv stop
  exact (hget k hk).trans (hws.other hold hnew)

end Digest

/-! ## The index -/

/-- Every group that there is state for is in the index. -/
def Listed (N : Names ν) (m : OrdMap Units ν) : Prop :=
  ∀ g, (m.get (N.groupName g)).isSome → g ∈ N.groups m

/-- Or it is still under its old name. -/
def Indexed (N : Names ν) (m : OrdMap Units ν) : Prop :=
  ∀ g, (m.get (N.groupName g)).isSome → g ∈ N.groups m ∨ (m.get (N.old (.group g))).isSome

/-- The migration gets to the end, or no group loses its old name before the index has it. -/
def Safe (N : Names ν) (c : Bool) (m : OrdMap Units ν) (stop : Nat × Nat) : Prop :=
  (N.migrateToNames c m stop.2).length ≤ stop.1 ∨
    ∀ g, Write.remove (N.old (.group g)) ∈ (N.migrateToNames c m stop.2).take stop.1 → g ∈ N.groups m

theorem indexed_iff {m : OrdMap Units ν} :
    N.Indexed m ↔ ∀ g, (held N.old N.new m (.group g)).isSome → N.Known m g := by
  refine forall_congr' fun g => ?_
  have hnew : N.new (.group g) = N.groupName g := rfl
  rw [held, Known, hnew]
  cases m.get (N.groupName g) with
  | none => simp only [Option.none_or, Option.isSome_none, Bool.false_eq_true, false_imp_iff, true_iff]; exact .inr
  | some v => rfl

section Digest

variable (hmac : Function.Injective N.digest)
include hmac

theorem known_of_attempt (hseal : ∀ d l, N.openIndex (N.sealIndex d l) = some l)
    {stop : Nat × Nat} {g : Units} (h : N.Known (N.attempt c kv stop) g) : N.Known kv g := by
  have hA := apart hmac
  have hlegal := legal_moveWrites hmac c kv
  have hback : ∀ ws, LegalAll N.old N.new kv ws → ((applyAll kv ws).get (N.old (.group g))).isSome →
      (kv.get (N.old (.group g))).isSome := by
    intro ws hws hs
    rw [Option.isSome_iff_ne_none] at hs ⊢
    exact fun hn => hs ((hws.onward hA _).2 hn)
  rw [attempt_eq hmac] at h
  split at h
  next =>
    rcases h with hg | hs
    · exact (mem_groups_complete hmac hseal stop.2).mp hg
    · rw [complete_get hmac stop.2 (index_ne_old N _).symm] at hs
      exact .inr (hback _ hlegal hs)
  next =>
    refine h.imp (fun hg => ?_) (hback _ (hlegal.take stop.1))
    rwa [groups_legal hmac (hlegal.take stop.1)] at hg

/-- What an attempt does to the index. -/
theorem indexed_attempt (hseal : ∀ d l, N.openIndex (N.sealIndex d l) = some l)
    (stop : Nat × Nat) : N.Indexed (N.attempt c kv stop) ↔ N.Indexed kv ∧ N.Safe c kv stop := by
  have hA := apart hmac
  have hlegal := (legal_moveWrites hmac c kv).take stop.1
  rw [indexed_iff, indexed_iff]
  simp only [held_attempt hmac]
  constructor
  · refine fun h => ⟨fun g hg => known_of_attempt hmac hseal (h g hg), ?_⟩
    by_cases hle : (N.migrateToNames c kv stop.2).length ≤ stop.1
    · exact .inl hle
    · refine .inr fun g hg => ?_
      have heq := attempt_eq hmac c kv stop
      rw [if_neg hle] at heq
      rw [take_writes hmac hle, hlegal.remove_mem_iff hA] at hg
      have hheld : (held N.old N.new kv (.group g)).isSome := by
        rw [held, Option.isSome_or, hg.1, Bool.or_true]
      have hknown := h g hheld
      rw [heq, Known, groups_legal hmac hlegal, hg.2] at hknown
      exact hknown.resolve_right Bool.false_ne_true
  · rintro ⟨h, hsafe⟩ g hg
    have hknown := h g hg
    rw [attempt_eq hmac]
    by_cases hle : (N.migrateToNames c kv stop.2).length ≤ stop.1
    · rw [if_pos hle]
      exact .inl ((mem_groups_complete hmac hseal stop.2).mpr hknown)
    · rw [if_neg hle, Known, groups_legal hmac hlegal]
      refine or_iff_not_imp_right.mpr fun hnone => ?_
      rcases hknown with hin | hs
      · exact hin
      · refine hsafe.resolve_left hle g ?_
        rw [take_writes hmac hle, hlegal.remove_mem_iff hA]
        exact ⟨hs, by rwa [Option.isSome_iff_ne_none, not_not] at hnone⟩

theorem indexed_attempts (hseal : ∀ d l, N.openIndex (N.sealIndex d l) = some l)
    (stops : List (Nat × Nat)) (kv : OrdMap Units ν) :
    N.Indexed (stops.foldl (N.attempt c) kv) ↔ N.Indexed kv ∧ Admits (N.attempt c) (N.Safe c) kv stops := by
  induction stops generalizing kv with
  | nil => exact (and_iff_left trivial).symm
  | cons stop stops ih => rw [List.foldl_cons, ih, indexed_attempt hmac hseal, Admits, and_assoc]

theorem held_attempts (stops : List (Nat × Nat)) (kv : OrdMap Units ν) (r : Record) :
    held N.old N.new (stops.foldl (N.attempt c) kv) r = held N.old N.new kv r := by
  induction stops generalizing kv with
  | nil => rfl
  | cons stop stops ih => exact (ih _).trans (held_attempt hmac stop r)

theorem other_attempts (stops : List (Nat × Nat)) (kv : OrdMap Units ν) {k : Units}
    (hold : ∀ r, k ≠ N.old r) (hnew : ∀ r, k ≠ N.new r) (hk : k ≠ N.fixed .groups) :
    (stops.foldl (N.attempt c) kv).get k = kv.get k := by
  induction stops generalizing kv with
  | nil => rfl
  | cons stop stops ih => exact (ih _).trans (other_attempt hmac stop hold hnew hk)

end Digest

/-! ## Done again to the end -/

/-- A name of an identity, old or new. -/
def Owns (N : Names ν) (k : Units) : Prop := (∃ r, k = N.old r) ∨ N.start <+: k

/-- What a migration from `kv` is to leave. -/
structure Migrated (N : Names ν) (canRemove : Bool) (kv final : OrdMap Units ν) : Prop where
  /-- every record under its new name, with what that had or else the old one -/
  moved : ∀ r, final.get (N.new r) = (kv.get (N.new r)).or (kv.get (N.old r))
  gone : canRemove = true → ∀ r, final.get (N.old r) = none
  others : ∀ N' : Names ν, N'.kid ≠ N.kid → N'.idTag ≠ N.idTag → ∀ k, N'.Owns k → final.get k = kv.get k
  listed : N.Listed final

theorem complete_moved (hmac : Function.Injective N.digest) (c : Bool) (kv : OrdMap Units ν) (draw : Nat) (r : Record) :
    Moved c N.old N.new (N.complete c kv draw) r := by
  have hMoved := moved_all hmac c kv r
  rw [Moved, Moves.get_new_iff] at hMoved ⊢
  rwa [complete_get hmac draw (index_ne_old N r).symm, complete_get hmac draw (index_ne_new hmac r).symm]

theorem complete_eq_attempt (N : Names ν) (c : Bool) (kv : OrdMap Units ν) (draw : Nat) :
    N.complete c kv draw = N.attempt c kv ((N.migrateToNames c kv draw).length, draw) := by
  rw [attempt, complete, List.take_length]

theorem listed_complete (hmac : Function.Injective N.digest) (hseal : ∀ d l, N.openIndex (N.sealIndex d l) = some l)
    (draw : Nat) : N.Listed (N.complete c kv draw) ↔ N.Indexed kv := by
  rw [indexed_iff]
  refine forall_congr' fun g => ?_
  have hget : (N.complete c kv draw).get (N.groupName g) = held N.old N.new kv (.group g) := by
    refine (complete_moved hmac c kv draw (.group g)).1.trans ?_
    rw [complete_eq_attempt]
    exact held_attempt hmac _ _
  rw [hget, mem_groups_complete hmac hseal]

theorem owned_apart (hk : N'.kid ≠ N.kid) (ht : N'.idTag ≠ N.idTag) {k : Units} (h : N'.Owns k) :
    (∀ r, k ≠ N.old r) ∧ ∀ s, k ≠ N.start ++ s := by
  rcases h with ⟨r', rfl⟩ | ⟨s', rfl⟩
  · exact ⟨fun r heq => hk (old_inj heq).1, fun s => old_ne_start r' s⟩
  · exact ⟨fun r heq => old_ne_start r s' heq.symm, fun s heq => ht (start_inj heq)⟩

/-- Whatever was cut off before, the records end where they should, and nothing else is touched. -/
theorem migrated_of_listed (hmac : Function.Injective N.digest) (stops : List (Nat × Nat)) (draw : Nat)
    (h : N.Listed (N.complete c (stops.foldl (N.attempt c) kv) draw)) :
    N.Migrated c kv (N.complete c (stops.foldl (N.attempt c) kv) draw) := by
  have hmoved := complete_moved hmac c (stops.foldl (N.attempt c) kv) draw
  refine ⟨fun r => ?_, fun hc r => (hmoved r).2 hc, ?_, h⟩
  · rw [(hmoved r).1, complete_eq_attempt, held_attempt hmac, held_attempts hmac, held]
  · intro N' hk ht k hown
    obtain ⟨hold, hstart⟩ := owned_apart hk ht hown
    have hnew : ∀ r, k ≠ N.new r := by
      intro r heq
      obtain ⟨s, hs⟩ := N.new_start r
      exact hstart s (heq.trans hs)
    have hindex : k ≠ N.fixed .groups := hstart _
    rw [complete_eq_attempt, other_attempt hmac _ hold hnew hindex, other_attempts hmac stops kv hold hnew hindex]

theorem listed_iff (hmac : Function.Injective N.digest) (hseal : ∀ d l, N.openIndex (N.sealIndex d l) = some l)
    (stops : List (Nat × Nat)) (draw : Nat) :
    N.Listed (N.complete c (stops.foldl (N.attempt c) kv) draw) ↔
      N.Indexed kv ∧ Admits (N.attempt c) (N.Safe c) kv stops := by
  rw [listed_complete hmac hseal, indexed_attempts hmac hseal]

/-- A migration that is cut off and done again, any number of times, leaves what it should exactly when no group was
lost to the index on the way. -/
theorem migrated_iff (N : Names ν) (hmac : Function.Injective N.digest)
    (hseal : ∀ d l, N.openIndex (N.sealIndex d l) = some l) (canRemove : Bool) (kv : OrdMap Units ν)
    (stops : List (Nat × Nat)) (draw : Nat) :
    N.Migrated canRemove kv (N.complete canRemove (stops.foldl (N.attempt canRemove) kv) draw) ↔
      N.Indexed kv ∧ Admits (N.attempt canRemove) (N.Safe canRemove) kv stops :=
  ⟨fun h => (listed_iff hmac hseal stops draw).mp h.listed,
    fun h => migrated_of_listed hmac stops draw ((listed_iff hmac hseal stops draw).mpr h)⟩

/-! ## A store that cannot delete -/

theorem remove_not_mem_trace (k : Units) (rs : List Record) (m : OrdMap Units ν) :
    Write.remove k ∉ trace false N.old N.new rs m := by
  induction rs generalizing m with
  | nil => exact List.not_mem_nil
  | cons r rs ih =>
      rw [trace, List.mem_append, not_or]
      refine ⟨?_, ih _⟩
      rw [Moves.move]
      cases m.get (N.old r) <;> cases (m.get (N.new r)).isNone <;> simp

/-- Where nothing is removed it does not matter where the migration is cut off. -/
theorem safe_of_keeps (hmac : Function.Injective N.digest) (m : OrdMap Units ν) (stop : Nat × Nat) :
    N.Safe false m stop := by
  by_cases hle : (N.migrateToNames false m stop.2).length ≤ stop.1
  · exact .inl hle
  · refine .inr fun g hg => absurd hg ?_
    rw [take_writes hmac hle]
    exact fun hin => remove_not_mem_trace _ _ _ (List.mem_of_mem_take hin)

theorem migrated_of_keeps (hmac : Function.Injective N.digest)
    (hseal : ∀ d l, N.openIndex (N.sealIndex d l) = some l) (hkv : N.Indexed kv) (stops : List (Nat × Nat)) (draw : Nat) :
    N.Migrated false kv (N.complete false (stops.foldl (N.attempt false) kv) draw) :=
  migrated_of_listed hmac stops draw
    ((listed_iff hmac hseal stops draw).mpr ⟨hkv, .of_forall (safe_of_keeps hmac) kv stops⟩)

/-! ## A group that is lost -/

theorem zeros_hex : (List.replicate 32 (0x30 : UInt16)).length = 32 ∧ (List.replicate 32 (0x30 : UInt16)).all isHex = true := by
  decide

theorem zeros_tag : (List.replicate 16 (0x30 : UInt16)).length = 16 ∧ (List.replicate 16 (0x30 : UInt16)).all isHex = true := by
  decide

/-- Names with the digest left out, and records that are lists of texts. -/
def plain : Names (List Units) where
  kid := List.replicate 32 0x30
  idTag := List.replicate 16 0x30
  digest s := s
  sealIndex _ gids := gids
  openIndex v := some v
  kid_hex := zeros_hex
  tag_hex := zeros_tag

/-- One group, under its old name. -/
def one : OrdMap Units (List Units) := OrdMap.empty.set (plain.old (.group (ascii "g"))) [ascii "state"]

theorem one_indexed : plain.Indexed one := by
  intro g hg
  have hne : plain.groupName g ≠ plain.old (.group (ascii "g")) := fun h => old_ne_start _ _ h.symm
  rw [one, OrdMap.get_set_ne _ _ hne, OrdMap.get_empty] at hg
  cases hg

/-- Cut off between the copy and the removal, and done again. -/
theorem one_migrated : plain.Migrated true one (plain.complete true ([(1, 0)].foldl (plain.attempt true) one) 0) := by
  refine (migrated_iff plain (fun _ _ h => h) (fun _ _ => rfl) true one [(1, 0)] 0).mpr ⟨one_indexed, ?_, trivial⟩
  refine .inr fun g hg => ?_
  have htake : (plain.migrateToNames true one 0).take 1 = [.set (plain.groupName (ascii "g")) [ascii "state"]] := rfl
  rw [htake, List.mem_singleton] at hg
  cases hg

/-- Cut off between the removal and the index, and done again: the group is moved and in no index. -/
theorem one_lost : ¬ plain.Migrated true one (plain.complete true ([(2, 0)].foldl (plain.attempt true) one) 0) := by
  intro h
  have hlisted := h.listed (ascii "g") (by decide)
  revert hlisted
  decide

end Names

end EncedoChat.Migrate
