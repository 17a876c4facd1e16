import EncedoChat.Descr.Text
import EncedoChat.Lib.JsonAccess
import EncedoChat.Lib.JsonBytes
import EncedoChat.Lib.Points
import EncedoChat.Network.Profile

/-!
# An invite as a link

`encodeInvite` and `decodeInvite` of `lib/invite.ts`. The fragment of a link is JSON in UTF-8, in base64url.
-/

namespace EncedoChat.Invites

open Units JsonText

def MAX_NAME : Nat := 64

def INBOX_BYTES : Nat := 32

/-- `[...s].slice(0, MAX_NAME).join('')` -/
def clampName (s : Units) : Units := cut MAX_NAME s

structure Invite where
  pub : Units
  name : Units
  reply : Bool
  inbox : Option Units
  key : Option Units
  net : Option Units
  deriving DecidableEq

def PUBLIC_NET : Units := ascii "main"

/-- `[A-Za-z0-9._-]` -/
def isNetUnit (u : UInt16) : Bool :=
  let n := u.toNat
  (65 ≤ n && n ≤ 90) || (97 ≤ n && n ≤ 122) || (48 ≤ n && n ≤ 57) || n = 46 || n = 95 || n = 45

/-- `/^[A-Za-z0-9._-]{1,64}$/` -/
def isNetId (s : Units) : Bool := 1 ≤ s.length && s.length ≤ 64 && s.all isNetUnit

/-- `encodeURIComponent` throws on a surrogate that stands alone. -/
def b64urlEncode (s : Units) : Option Units := if isWellFormed s then some (Descr.b64url (utf8 s)) else none

/-- `decodeURIComponent(escape(b))`: throws where the bytes are no UTF-8. -/
def unescapeUtf8 (b : Bytes) : Option Units :=
  let cs := Utf8.run Utf8.start b
  if Utf8.encode cs = b then some (ofChars cs) else none

def b64urlDecode (s : Units) : Option Units :=
  (Base64.atob (s.map fun u => if u = 0x2D then 0x2B else if u = 0x5F then 0x2F else u)).bind unescapeUtf8

/-- `i=` -/
def MARK : Units := ascii "i="

/-- `[\p{Cc}\p{Cf}\p{Zl}\p{Zp}]`, of a code point; a surrogate that stands alone is none of these. -/
def isInvisible : Units → Bool
  | [u] => !(isHigh u || isLow u) && Network.isInvisible (Char.ofNat u.toNat)
  | [h, l] => Network.isInvisible (Char.ofNat (0x10000 + (h.toNat - 0xD800) * 0x400 + (l.toNat - 0xDC00)))
  | _ => false

/-- What the name in a link is before it is cut. -/
def shown (n : Units) : Units := trim (without isInvisible n)

/-- A string that is this many bytes in base64. -/
def isBytes (n : Nat) (v : Option Value) : Bool :=
  match asStr v with
  | some s => match Base64.atob s with
    | some raw => raw.length = n
    | none => false
  | none => false

def isNet (v : Option Value) : Bool :=
  match asStr v with
  | some t => isNetId t && t ≠ PUBLIC_NET
  | none => false

/-- What the link says; a field that would be `undefined` is not there. -/
def inviteJson (linkNetwork : Units) (inv : Invite) : Value :=
  let net := inv.net.getD linkNetwork
  let given (k : Units) : Option Units → List (Units × Value)
    | none | some [] => []
    | some s => [(k, .str s)]
  .obj ([(ascii "p", .str inv.pub), (ascii "n", .str (clampName inv.name))] ++
    (if inv.reply then [(ascii "r", .num (.nat 1))] else []) ++ given (ascii "s") inv.inbox ++ given (ascii "k") inv.key ++
    (if net ≠ PUBLIC_NET then [(ascii "t", .str net)] else []))

section
variable (F : Doubles)

/-- On a client whose network is `linkNetwork`. -/
def encodeInvite (linkNetwork : Units) (inv : Invite) : Option Units :=
  (b64urlEncode (stringify F (inviteJson linkNetwork inv))).map fun s => MARK ++ s

/-- The JSON in a fragment, if there is any. -/
def payload (hash : Units) : Option Value :=
  let frag := if hash.head? = some 0x23 then hash.tail else hash
  if MARK.isPrefixOf frag then (b64urlDecode (frag.drop 2)).bind (parse F) else none

/-- `decodeInvite`, of the JSON. -/
def readInvite (obj : Value) : Option Invite :=
  if truthy (some obj) = false then none
  else match asStr (obj.field (ascii "p")), asStr (obj.field (ascii "n")) with
    | some p, some n =>
      if isBytes 32 (obj.field (ascii "p")) = false then none
      else
        let name := clampName (shown n)
        let s := obj.field (ascii "s")
        let k := obj.field (ascii "k")
        let t := obj.field (ascii "t")
        if name = [] then none
        else if s.isSome ∧ isBytes INBOX_BYTES s = false then none
        -- an inbox that is there is not empty: it is 32 bytes
        else if (k.isSome ∨ s.isSome) ∧ ¬(s.isSome ∧ isBytes 32 k) then none
        else if t.isSome ∧ isNet t = false then none
        else some ⟨p, name, truthy (obj.field (ascii "r")), asStr s, asStr k, asStr t⟩
    | _, _ => none

def decodeInvite (hash : Units) : Option Invite := (payload F hash).bind readInvite

end

/-! ## What is written is read -/

theorem b64urlDecode_b64url {s : Units} (h : WellFormed s) : b64urlDecode (Descr.b64url (utf8 s)) = some s := by
  have hback : (Descr.b64url (utf8 s)).map (fun u => if u = 0x2D then 0x2B else if u = 0x5F then 0x2F else u) =
      (Base64.sextets (utf8 s)).map Base64.digit := by
    rw [Descr.b64url_eq, List.map_map]
    apply List.map_congr_left
    intro n hn
    exact Descr.urlDigit_back n (Base64.sextets_lt hn)
  obtain ⟨cs, rfl⟩ := h
  rw [b64urlDecode, hback, Base64.atob_digits, Option.bind_some, unescapeUtf8, utf8_ofChars, Utf8.run_encode]
  exact if_pos rfl

section
variable {F : Doubles}

/-- The fragment of a link with this JSON in it. -/
def fragment (F : Doubles) (v : Value) : Units := MARK ++ Descr.b64url (utf8 (stringify F v))

theorem payload_fragment {v : Value} (h : v.All F.Holds) : payload F (fragment F v) = some v := by
  have hhead : (fragment F v).head? ≠ some 0x23 := by simp [fragment, MARK, ascii]
  have hmark : MARK.isPrefixOf (fragment F v) = true := List.isPrefixOf_iff_prefix.mpr (List.prefix_append _ _)
  have hdrop : (fragment F v).drop 2 = Descr.b64url (utf8 (stringify F v)) := List.drop_left' rfl
  simp only [payload, if_neg hhead, hmark, if_true, hdrop, b64urlDecode_b64url (wellFormed_stringify v h), Option.bind_some,
    parse_stringify h]

theorem holds_inviteJson (net : Units) (inv : Invite) : (inviteJson net inv).All F.Holds := by
  have hone : F.Holds (.nat 1) := holds_nat (by decide)
  rw [inviteJson]
  dsimp only
  refine ⟨?_, allMembers_iff.mpr ?_⟩
  · cases inv.reply <;> rcases inv.inbox with _ | _ | _ <;> rcases inv.key with _ | _ | _ <;>
      by_cases h : inv.net.getD net = PUBLIC_NET <;> simp [h, ascii]
  · cases inv.reply <;> rcases inv.inbox with _ | _ | _ <;> rcases inv.key with _ | _ | _ <;>
      by_cases h : inv.net.getD net = PUBLIC_NET <;> simp [h, Value.All, hone]

theorem encodeInvite_eq (net : Units) (inv : Invite) : encodeInvite F net inv = some (fragment F (inviteJson net inv)) := by
  have hwell := (isWellFormed_iff _).mpr (wellFormed_stringify (inviteJson net inv) (holds_inviteJson (F := F) net inv))
  rw [encodeInvite, b64urlEncode, if_pos hwell]
  rfl

theorem decodeInvite_fragment {v : Value} (h : v.All F.Holds) : decodeInvite F (fragment F v) = readInvite v := by
  rw [decodeInvite, payload_fragment h, Option.bind_some]

end

/-! ## What is accepted -/

/-- What the code asks of the fields of an invite beside its name. -/
structure Proper (inv : Invite) : Prop where
  pub : isBytes 32 (some (.str inv.pub)) = true
  inbox : ∀ s, inv.inbox = some s → isBytes INBOX_BYTES (some (.str s)) = true
  key : ∀ k, inv.key = some k → isBytes 32 (some (.str k)) = true
  both : inv.inbox.isSome = inv.key.isSome
  net : ∀ t, inv.net = some t → isNet (some (.str t)) = true

theorem asStr_of_isBytes {n : Nat} {v : Option Value} (h : isBytes n v = true) : ∃ s, v = some (.str s) := by
  rw [isBytes] at h
  split at h
  · rename_i s hs
    rcases v with _ | _ | _ | _ | _ | _ | _ <;> simp_all [asStr]
  · cases h

theorem asStr_of_isNet {v : Option Value} (h : isNet v = true) : ∃ s, v = some (.str s) := by
  rw [isNet] at h
  split at h
  · rename_i s hs
    rcases v with _ | _ | _ | _ | _ | _ | _ <;> simp_all [asStr]
  · cases h

theorem asStr_some {v : Option Value} {s : Units} (h : asStr v = some s) : v = some (.str s) := by
  rcases v with _ | _ | _ | _ | _ | _ | _ <;> simp_all [asStr]

theorem asStr_str (v : Option Units) : asStr (v.map Value.str) = v := by cases v <;> rfl

/-- The fields that an invite was read from. -/
structure ReadFrom (obj : Value) (inv : Invite) : Prop where
  pub : obj.field (ascii "p") = some (.str inv.pub)
  name : ∃ n, asStr (obj.field (ascii "n")) = some n ∧ inv.name = clampName (shown n)
  inbox : obj.field (ascii "s") = inv.inbox.map Value.str
  key : obj.field (ascii "k") = inv.key.map Value.str
  net : obj.field (ascii "t") = inv.net.map Value.str

theorem readInvite_some {obj : Value} {inv : Invite} (h : readInvite obj = some inv) :
    ReadFrom obj inv ∧ inv.name ≠ [] ∧ Proper inv := by
  rw [readInvite] at h
  split at h
  · cases h
  split at h
  · rename_i p n hp hn
    split at h
    · cases h
    rename_i hpub
    dsimp only at h
    split at h
    · cases h
    rename_i hname
    split at h
    · cases h
    rename_i hinbox
    split at h
    · cases h
    rename_i hkey
    split at h
    · cases h
    rename_i hnet
    obtain rfl := Option.some.inj h
    rw [asStr_some hp] at hpub
    have hp' := asStr_some hp
    have htext : ∃ t, obj.field (ascii "t") = Option.map Value.str t ∧ ∀ u, t = some u → isNet (some (.str u)) = true := by
      cases ht : obj.field (ascii "t") with
      | none =>
          refine ⟨none, rfl, fun u hu => ?_⟩
          cases hu
      | some v =>
          have hv : isNet (some v) = true := by simpa [ht] using hnet
          obtain ⟨u, hu⟩ := asStr_of_isNet hv
          refine ⟨some u, hu, fun w hw => ?_⟩
          rw [← Option.some.inj hw, ← hu]
          exact hv
    obtain ⟨t, ht, hnet'⟩ := htext
    have hpub' : isBytes 32 (some (.str p)) = true := Bool.not_eq_false _ ▸ hpub
    cases hs : obj.field (ascii "s") with
    | none =>
        have hk : obj.field (ascii "k") = none := by simpa [hs] using hkey
        simp only [hk, ht, asStr_str]
        refine ⟨⟨hp', ⟨n, hn, rfl⟩, hs, hk, ht⟩, hname, hpub', fun u hu => ?_, fun u hu => ?_, rfl, hnet'⟩
        · cases hu
        · cases hu
    | some v =>
        have hv : isBytes INBOX_BYTES (some v) = true := by simpa [hs] using hinbox
        have hk : isBytes 32 (obj.field (ascii "k")) = true := by simpa [hs] using hkey
        obtain ⟨s, hs'⟩ := asStr_of_isBytes hv
        obtain ⟨k, hk'⟩ := asStr_of_isBytes hk
        obtain rfl := Option.some.inj hs'
        rw [hk'] at hk
        simp only [hk', ht, asStr_str]
        refine ⟨⟨hp', ⟨n, hn, rfl⟩, hs, hk', ht⟩, hname, hpub', fun u hu => ?_, fun u hu => ?_, rfl, hnet'⟩
        · rw [← Option.some.inj hu]
          exact hv
        · rw [← Option.some.inj hu]
          exact hk
  · cases h

theorem isBytes_ne_nil {s : Units} {n : Nat} (hn : 0 < n) (h : isBytes n (some (.str s)) = true) : s ≠ [] := by
  rintro rfl
  have hnil : Base64.atob [] = some [] := rfl
  simp only [isBytes, asStr, hnil, List.length_nil, decide_eq_true_eq] at h
  omega

theorem Proper.fields {inv : Invite} (h : Proper inv) :
    (inviteJson PUBLIC_NET inv).field (ascii "p") = some (.str inv.pub) ∧
    (inviteJson PUBLIC_NET inv).field (ascii "n") = some (.str (clampName inv.name)) ∧
    truthy ((inviteJson PUBLIC_NET inv).field (ascii "r")) = inv.reply ∧
    (inviteJson PUBLIC_NET inv).field (ascii "s") = inv.inbox.map Value.str ∧
    (inviteJson PUBLIC_NET inv).field (ascii "k") = inv.key.map Value.str ∧
    (inviteJson PUBLIC_NET inv).field (ascii "t") = inv.net.map Value.str := by
  have hinbox : inv.inbox ≠ some [] := fun hs => isBytes_ne_nil (by decide) (h.inbox [] hs) rfl
  have hkey : inv.key ≠ some [] := fun hk => isBytes_ne_nil (by decide) (h.key [] hk) rfl
  have hnet : inv.net ≠ some PUBLIC_NET := by
    intro ht
    have := h.net _ ht
    simp [isNet, asStr] at this
  obtain ⟨pub, name, reply, inbox, key, net⟩ := inv
  dsimp only at hinbox hkey hnet ⊢
  refine ⟨rfl, rfl, ?_, ?_, ?_, ?_⟩ <;>
    rcases inbox with _ | _ | _ <;> rcases key with _ | _ | _ <;> cases reply <;> rcases net with _ | t <;>
    simp_all [inviteJson, Value.field, ascii, List.lookup_cons, truthy, Number.nat]

/-- What was accepted is read back, with the name that is left of its name. -/
theorem Proper.readInvite_json {inv : Invite} (h : Proper inv) : readInvite (inviteJson PUBLIC_NET inv) =
    if clampName (shown (clampName inv.name)) = [] then none
    else some { inv with name := clampName (shown (clampName inv.name)) } := by
  obtain ⟨hp, hn, hr, hs, hk, ht⟩ := h.fields
  have htrue : truthy (some (inviteJson PUBLIC_NET inv)) = true := rfl
  have hpub : isBytes 32 (some (.str inv.pub)) = true := h.pub
  have hinbox : ¬((inv.inbox.map Value.str).isSome = true ∧ isBytes INBOX_BYTES (inv.inbox.map Value.str) = false) := by
    rintro ⟨hsome, hbad⟩
    cases hc : inv.inbox with
    | none =>
        rw [hc] at hsome
        cases hsome
    | some s =>
        rw [hc, Option.map_some, h.inbox s hc] at hbad
        cases hbad
  have hkey : ¬(((inv.key.map Value.str).isSome = true ∨ (inv.inbox.map Value.str).isSome = true) ∧
      ¬((inv.inbox.map Value.str).isSome = true ∧ isBytes 32 (inv.key.map Value.str) = true)) := by
    rintro ⟨hsome, hbad⟩
    rw [Option.isSome_map, Option.isSome_map, h.both, or_self] at hsome
    cases hc : inv.key with
    | none =>
        rw [hc] at hsome
        cases hsome
    | some k =>
        refine hbad ⟨?_, ?_⟩
        · rw [Option.isSome_map, h.both, hc]
          rfl
        · rw [hc, Option.map_some, h.key k hc]
  have hnet : ¬((inv.net.map Value.str).isSome = true ∧ isNet (inv.net.map Value.str) = false) := by
    rintro ⟨hsome, hbad⟩
    cases hc : inv.net with
    | none =>
        rw [hc] at hsome
        cases hsome
    | some t =>
        rw [hc, Option.map_some, h.net t hc] at hbad
        cases hbad
  rw [readInvite, htrue, if_neg (by decide), hp, hn, hr, hs, hk, ht]
  have hstr : ∀ s, asStr (some (.str s)) = some s := fun _ => rfl
  simp only [hstr, asStr_str, hpub, Bool.true_eq_false, if_false, if_neg hinbox, if_neg hkey, if_neg hnet]

/-! ## Which names stay -/

theorem clampName_clampName (s : Units) : clampName (clampName s) = clampName s := cut_cut MAX_NAME s

/-- In what is shown of a name there is nothing invisible up to the cut, and the cut does not come after a blank. -/
structure Steady (n : Units) : Prop where
  visible : ∀ p ∈ (points (shown n)).take MAX_NAME, isInvisible p = false
  edge : ∀ p, (points (shown n))[MAX_NAME - 1]? = some p → p.any isSpace = false

theorem shown_clampName {t : Units} (h : clampName (shown (clampName t)) = clampName t) :
    without isInvisible (clampName t) = clampName t ∧ Trimmed (clampName t) := by
  have hclamp : (clampName (shown (clampName t))).length ≤ (shown (clampName t)).length := length_cut_le MAX_NAME _
  have htrim : (shown (clampName t)).length ≤ (without isInvisible (clampName t)).length := length_trim_le _
  have hwithout := length_without_le isInvisible (clampName t)
  rw [h] at hclamp
  have hsame : without isInvisible (clampName t) = clampName t :=
    without_eq_self (length_without_iff.mp (le_antisymm hwithout (hclamp.trans htrim)))
  refine ⟨hsame, ?_⟩
  have hshown : trim (clampName t) = clampName t := by
    apply trim_eq_of_length
    rw [shown, hsame] at hclamp
    exact le_antisymm (length_trim_le _) hclamp
  rw [← hshown]
  exact trimmed_trim _

/-- A name that was read is read again as it is, if it is steady. -/
theorem steady_iff (n : Units) : clampName (shown (clampName (shown n))) = clampName (shown n) ↔ Steady n := by
  have htrimmed : Trimmed (shown n) := trimmed_trim _
  have hpoints : points (clampName (shown n)) = (points (shown n)).take MAX_NAME := points_cut MAX_NAME _
  constructor
  · intro h
    obtain ⟨hsame, hcut⟩ := shown_clampName h
    have hall := length_without_iff.mp (congrArg List.length hsame)
    exact ⟨hpoints ▸ hall, (htrimmed.cut_iff (MAX_NAME - 1)).mp hcut⟩
  · intro h
    have hcut : Trimmed (clampName (shown n)) := (htrimmed.cut_iff (MAX_NAME - 1)).mpr h.edge
    have hsame : shown (clampName (shown n)) = clampName (shown n) := by
      rw [shown, without_eq_self (hpoints ▸ h.visible), hcut.trim_eq]
    rw [hsame, clampName_clampName]

/-! ## Links -/

/-- The name in a fragment, before anything is taken off it. -/
def named (F : Doubles) (hash : Units) : Option Units := (payload F hash).bind fun obj => asStr (obj.field (ascii "n"))

section
variable {F : Doubles}

theorem ReadFrom.refused {obj : Value} {inv : Invite} (h : ReadFrom obj inv) (hproper : Proper inv) :
    (obj.field (ascii "s")).isSome = (obj.field (ascii "k")).isSome ∧
    ((obj.field (ascii "s")).isSome → isBytes INBOX_BYTES (obj.field (ascii "s")) = true) ∧
    ((obj.field (ascii "k")).isSome → isBytes 32 (obj.field (ascii "k")) = true) ∧
    isBytes 32 (obj.field (ascii "p")) = true ∧
    ((obj.field (ascii "t")).isSome → isNet (obj.field (ascii "t")) = true) := by
  rw [h.pub, h.inbox, h.key, h.net, Option.isSome_map, Option.isSome_map, Option.isSome_map]
  refine ⟨hproper.both, fun hs => ?_, fun hk => ?_, hproper.pub, fun ht => ?_⟩
  · obtain ⟨s, hs⟩ := Option.isSome_iff_exists.mp hs
    rw [hs]
    exact hproper.inbox s hs
  · obtain ⟨k, hk⟩ := Option.isSome_iff_exists.mp hk
    rw [hk]
    exact hproper.key k hk
  · obtain ⟨t, ht⟩ := Option.isSome_iff_exists.mp ht
    rw [ht]
    exact hproper.net t ht

/-- What the link of an accepted invite is read as. -/
theorem decodeInvite_again {hash : Units} {inv : Invite} (h : decodeInvite F hash = some inv) :
    (decodeInvite F (fragment F (inviteJson PUBLIC_NET inv)) = some inv ↔ ∃ n, named F hash = some n ∧ Steady n) := by
  obtain ⟨obj, hobj, hread⟩ := Option.bind_eq_some_iff.mp h
  obtain ⟨hfrom, hne, hproper⟩ := readInvite_some hread
  obtain ⟨n, hn, hname⟩ := hfrom.name
  have hnamed : named F hash = some n := by rw [named, hobj, Option.bind_some, hn]
  have hclamp : clampName inv.name = inv.name := by rw [hname, clampName_clampName]
  have hsteady : (∃ n, named F hash = some n ∧ Steady n) ↔ clampName (shown inv.name) = inv.name := by
    rw [hname, steady_iff]
    constructor
    · rintro ⟨m, hm, hsteady⟩
      rw [hnamed] at hm
      exact Option.some.inj hm ▸ hsteady
    · exact fun hsteady => ⟨n, hnamed, hsteady⟩
  rw [decodeInvite_fragment (holds_inviteJson _ _), hproper.readInvite_json, hclamp, hsteady]
  constructor
  · intro hsame
    split at hsame
    · cases hsame
    · exact congrArg Invite.name (Option.some.inj hsame)
  · intro hsame
    rw [hsame, if_neg hne]

end

/-- The link of an accepted invite is read as that invite just when the name it came with is steady; and what carries half of
an inbox, or a field that is not proper, is refused. -/
theorem invite_stable (F : Doubles) :
    (∀ hash inv, decodeInvite F hash = some inv → ∃ link, encodeInvite F PUBLIC_NET inv = some link ∧
      (decodeInvite F link = some inv ↔ ∃ n, named F hash = some n ∧ Steady n)) ∧
    (∀ hash obj, payload F hash = some obj →
      (obj.field (ascii "s")).isSome ≠ (obj.field (ascii "k")).isSome ∨
      (obj.field (ascii "s")).isSome ∧ isBytes INBOX_BYTES (obj.field (ascii "s")) = false ∨
      (obj.field (ascii "k")).isSome ∧ isBytes 32 (obj.field (ascii "k")) = false ∨
      isBytes 32 (obj.field (ascii "p")) = false ∨
      (obj.field (ascii "t")).isSome ∧ isNet (obj.field (ascii "t")) = false → decodeInvite F hash = none) := by
  refine ⟨fun hash inv h => ⟨_, encodeInvite_eq PUBLIC_NET inv, decodeInvite_again h⟩, ?_⟩
  intro hash obj hobj hbad
  cases hinv : decodeInvite F hash with
  | none => rfl
  | some inv =>
      rw [decodeInvite, hobj, Option.bind_some] at hinv
      obtain ⟨hfrom, -, hproper⟩ := readInvite_some hinv
      obtain ⟨hboth, hs, hk, hp, ht⟩ := hfrom.refused hproper
      rcases hbad with hbad | ⟨hsome, hbad⟩ | ⟨hsome, hbad⟩ | hbad | ⟨hsome, hbad⟩
      · exact absurd hboth hbad
      · rw [hs hsome] at hbad
        cases hbad
      · rw [hk hsome] at hbad
        cases hbad
      · rw [hp] at hbad
        cases hbad
      · rw [ht hsome] at hbad
        cases hbad

/-! ## A name that is cut after a blank -/

def somePub : Units := Base64.btoa (List.replicate 32 0)

/-- Sixty-three letters, a blank and a letter. -/
def longName : Units := List.replicate 63 0x61 ++ [0x20, 0x62]

def nameJson (name : Units) : Value := .obj [(ascii "p", .str somePub), (ascii "n", .str name)]

theorem isBytes_somePub : isBytes 32 (some (.str somePub)) = true := by
  simp [isBytes, asStr, somePub, Base64.atob_btoa]

theorem holds_nameJson {F : Doubles} (name : Units) : (nameJson name).All F.Holds := by
  refine ⟨?_, trivial, trivial, trivial⟩
  simp [ascii]

/-- What is read where there is a key and a name. -/
theorem readInvite_nameJson {name : Units} (h : clampName (shown name) ≠ []) :
    readInvite (nameJson name) = some ⟨somePub, clampName (shown name), false, none, none, none⟩ := by
  have hp : (nameJson name).field (ascii "p") = some (.str somePub) := rfl
  have hn : (nameJson name).field (ascii "n") = some (.str name) := by simp [nameJson, Value.field, ascii, List.lookup_cons]
  have hno : ∀ k, k ≠ ascii "p" → k ≠ ascii "n" → (nameJson name).field k = none := by
    intro k hp hn
    simp [nameJson, Value.field, List.lookup_cons, hp, hn, beq_eq_false_iff_ne.mpr]
  have hr := hno (ascii "r") (by simp [ascii]) (by simp [ascii])
  have hs := hno (ascii "s") (by simp [ascii]) (by simp [ascii])
  have hk := hno (ascii "k") (by simp [ascii]) (by simp [ascii])
  have ht := hno (ascii "t") (by simp [ascii]) (by simp [ascii])
  have htrue : truthy (some (nameJson name)) = true := rfl
  have hfalse : truthy none = false := rfl
  simp [readInvite, htrue, hp, hn, hr, hs, hk, ht, asStr, isBytes_somePub, h, hfalse]

theorem longName_cut : ∃ hash inv link, decodeInvite Doubles.whole hash = some inv ∧
    encodeInvite Doubles.whole PUBLIC_NET inv = some link ∧ decodeInvite Doubles.whole link ≠ some inv := by
  have hcut : clampName (shown longName) = List.replicate 63 0x61 ++ [0x20] := by decide +kernel
  have hne : clampName (shown longName) ≠ [] := by
    rw [hcut]
    simp
  have hread := readInvite_nameJson hne
  rw [← decodeInvite_fragment (F := Doubles.whole) (holds_nameJson longName)] at hread
  refine ⟨_, _, _, hread, encodeInvite_eq PUBLIC_NET _, fun hagain => ?_⟩
  obtain ⟨n, hn, hsteady⟩ := (decodeInvite_again hread).mp hagain
  rw [named, payload_fragment (holds_nameJson longName), Option.bind_some] at hn
  have hfield : (nameJson longName).field (ascii "n") = some (.str longName) := by
    simp [nameJson, Value.field, ascii, List.lookup_cons]
  rw [hfield] at hn
  obtain rfl : longName = n := Option.some.inj hn
  exact absurd (hsteady.edge [0x20] (by decide +kernel)) (by decide)

theorem invite_stable_letter : ∃ link,
    encodeInvite Doubles.whole PUBLIC_NET ⟨somePub, [0x62], false, none, none, none⟩ = some link ∧
    decodeInvite Doubles.whole link = some ⟨somePub, [0x62], false, none, none, none⟩ := by
  have hcut : clampName (shown [0x62]) = [0x62] := by decide +kernel
  have hne : clampName (shown [0x62]) ≠ [] := by
    rw [hcut]
    simp
  have hread := readInvite_nameJson hne
  rw [hcut, ← decodeInvite_fragment (F := Doubles.whole) (holds_nameJson [0x62])] at hread
  obtain ⟨link, hlink, hiff⟩ := (invite_stable Doubles.whole).1 _ _ hread
  refine ⟨link, hlink, hiff.mpr ⟨[0x62], ?_, (steady_iff [0x62]).mp ?_⟩⟩
  · rw [named, payload_fragment (holds_nameJson [0x62]), Option.bind_some]
    simp [nameJson, Value.field, ascii, List.lookup_cons, asStr]
  · rw [hcut, hcut]

end EncedoChat.Invites
