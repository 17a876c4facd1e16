import EncedoChat.Envelope.Again

/-!
# What is built is decoded

Every builder makes an envelope that the decoder takes as it is, from what its callers pass.
-/

namespace EncedoChat.Envelope

open Units JsonText
open Message (QuoteRef ENVELOPE_V)

/-- A call of a builder. -/
inductive Call where
  | msg (body : Units) (format : MsgFormat) (re : Option QuoteRef)
  | typing (state : TypingState)
  | presence (state : PresenceState)
  | reaction (to_ emoji : Units)
  | edit (to_ body : Units) (format : MsgFormat)
  | knock
  | file (f : FileMeta)
  | rtc (to_ : Units) (sig : Value)
  | ack (ref : Units) (rts : Number)
  | groupSkd (f : SkdFields)
  | groupSkdReq (gid : Units) (epoch : Number)

def Call.env (b : Base) : Call → Value
  | msg body format re => envMsg b body format re
  | typing state => envTyping b state
  | presence state => envPresence b state
  | reaction to_ emoji => envReaction b to_ emoji
  | edit to_ body format => envEdit b to_ body format
  | knock => envKnock b
  | file f => envFile b f
  | rtc to_ sig => envRtc b to_ sig
  | ack ref rts => envAck b ref rts
  | groupSkd f => envGroupSkd b f
  | groupSkdReq gid epoch => envGroupSkdReq b gid epoch

/-- A quote that `makeQuote` makes of a message whose id has up to 64 characters. -/
def Quoted (q : QuoteRef) : Prop := ∃ (id text : Units) (author : Option Mentions.PubKey),
  id ≠ [] ∧ id.length ≤ 64 ∧ q = Message.makeQuote id text (author.map fun pub => pub.raw)

/-- A file cut by `planChunks`, with the time the store drops it. -/
structure Planned (F : Doubles) (f : FileMeta) : Prop where
  plan : ∃ size chunk m, File.planChunks size chunk = .ok m ∧ f.size = m.size ∧ f.chunk = m.chunk ∧ f.chunks = m.chunks ∧
    f.alg = m.alg
  exp : ∃ x, f.exp = some x ∧ F.Holds x
  re : ∀ q, f.re = some q → Quoted q
  album : ∀ a, f.album = some a → isAlbumRef (albumJson a) = true

/-- What callers pass: the numbers are doubles, and a signal is not `null`. -/
def Call.Allowed (F : Doubles) : Call → Prop
  | msg _ _ re => ∀ q, re = some q → Quoted q
  | edit to_ body _ => to_ ≠ [] ∧ body ≠ []
  | file f => Planned F f
  | rtc _ sig => sig.isNull = false ∧ sig.All F.Holds
  | ack _ rts => F.Holds rts
  | groupSkd f => F.Holds f.epoch ∧ ∀ n, f.ctr = some n → F.Holds (.nat n)
  | groupSkdReq _ epoch => F.Holds epoch
  | typing _ | presence _ | reaction _ _ | knock => True

/-! ## The members every envelope has -/

def baseKeys : List Units := [ascii "v", ascii "t", ascii "id", ascii "ts", ascii "seq"]

section
variable {F : Doubles} {t : Units} {b : Base} {rest : List (Units × Value)}

theorem field_base {k : Units} (h : k ∉ baseKeys) : (Value.obj (base t b ++ rest)).field k = rest.lookup k := by
  simp only [baseKeys, List.mem_cons, List.not_mem_nil, or_false, not_or] at h
  obtain ⟨hv, ht, hid, hts, hseq⟩ := h
  have hne : ∀ {k'}, k ≠ k' → (k == k') = false := fun hk => beq_eq_false_iff_ne.mpr hk
  simp only [Value.field, base, List.cons_append, List.nil_append, List.lookup_cons, hne hv, hne ht, hne hid, hne hts,
    hne hseq]

theorem accept_base (hcheck : check (.obj (base t b ++ rest)) (kindOf t) = true)
    (hsame : sanitize (.obj (base t b ++ rest)) (kindOf t) = .obj (base t b ++ rest)) :
    accept (.obj (base t b ++ rest)) = some (.obj (base t b ++ rest)) := by
  refine accept_some.mpr ⟨?_, t, ?_, ?_, ?_, ?_, hcheck, hsame.symm⟩ <;>
    simp [Value.field, base, ascii, List.lookup_cons, isStr, isNum, asStr, asNum]

theorem all_base (hts : F.Holds b.ts) (hseq : F.Holds b.seq) (hkeys : (baseKeys ++ rest.map Prod.fst).Nodup)
    (hrest : AllMembers F.Holds rest) : (Value.obj (base t b ++ rest)).All F.Holds := by
  have hone : F.Holds (.nat ENVELOPE_V) := holds_nat (by decide)
  refine ⟨?_, allMembers_append ⟨hone, trivial, trivial, hts, hseq, trivial⟩ hrest⟩
  rw [List.map_append]
  exact hkeys

end

/-! ## A quote -/

theorem length_flatten_points_le {l : List Units} {s : Units} (h : ∀ p ∈ l, p ∈ points s) :
    l.flatten.length ≤ 2 * l.length := by
  induction l with
  | nil => exact le_rfl
  | cons p l ih =>
      have hrest := ih fun q hq => h q (List.mem_cons_of_mem p hq)
      have hone : p.length ≤ 2 := by
        rcases points_cases (h p List.mem_cons_self) with ⟨u, rfl⟩ | ⟨u, l, -, -, rfl⟩ <;> simp
      rw [List.flatten_cons, List.length_append, List.length_cons]
      omega

/-- What a sender quotes is well within what a receiver takes. -/
theorem length_quoteSnippet (text : Units) : (Message.quoteSnippet text).length ≤ QUOTE_MAX_WIRE := by
  rw [Message.quoteSnippet]
  generalize Message.trim (Message.collapse false text) = flat
  split
  · rename_i hshort
    have hle := length_flatten_points_le (l := points flat) (s := flat) fun p hp => hp
    rw [flatten_points] at hle
    rw [Message.QUOTE_MAX] at hshort
    rw [QUOTE_MAX_WIRE]
    omega
  · have hle := length_flatten_points_le (l := (points flat).take Message.QUOTE_MAX) (s := flat)
      fun p hp => List.mem_of_mem_take hp
    have htake := List.length_take_le Message.QUOTE_MAX (points flat)
    rw [List.length_append, List.length_singleton, QUOTE_MAX_WIRE]
    rw [Message.QUOTE_MAX] at hle htake ⊢
    omega

theorem isHex_pubHint (pub : Mentions.PubKey) : isHex 8 (some (.str (Message.pubHint pub.raw))) = true := by
  have hdigit : ∀ n < 16, ((48 ≤ hexDigit n && hexDigit n ≤ 57) || (97 ≤ hexDigit n && hexDigit n ≤ 102)) = true := by decide
  simp only [isHex, asStr, Bool.and_eq_true, decide_eq_true_eq, List.all_eq_true]
  refine ⟨?_, fun u hu => ?_⟩
  · simp [Message.pubHint, List.length_flatMap, pub.full]
  · obtain ⟨x, -, hx⟩ := List.mem_flatMap.mp hu
    have hlt := x.toNat_lt
    rcases List.mem_cons.mp hx with rfl | hx
    · exact hdigit _ (by omega)
    · obtain rfl := List.mem_singleton.mp hx
      exact hdigit _ (by omega)

theorem Quoted.isQuoteRef {q : QuoteRef} (h : Quoted q) : isQuoteRef (quoteJson q) = true := by
  obtain ⟨id, text, author, hne, hlen, rfl⟩ := h
  have hpos := List.length_pos_of_ne_nil hne
  have htext := length_quoteSnippet text
  have hid : (quoteJson (Message.makeQuote id text (author.map fun pub => pub.raw))).field (ascii "id") =
      some (.str id) := rfl
  have hfield : (quoteJson (Message.makeQuote id text (author.map fun pub => pub.raw))).field (ascii "text") =
      some (.str (Message.quoteSnippet text)) := by
    simp [quoteJson, Message.makeQuote, Value.field, ascii, List.lookup_cons]
  have hau : (quoteJson (Message.makeQuote id text (author.map fun pub => pub.raw))).field (ascii "au") =
      author.map fun pub => .str (Message.pubHint pub.raw) := by
    cases author <;> simp [quoteJson, Message.makeQuote, Value.field, ascii, List.lookup_cons, given]
  rw [Envelope.isQuoteRef, hid, hfield, hau]
  cases author with
  | none => simp [isText, asStr, htext, hlen]; omega
  | some pub => simp [isText, asStr, htext, hlen, isHex_pubHint pub]; omega

theorem all_quoteJson {F : Doubles} (q : QuoteRef) : (quoteJson q).All F.Holds := by
  refine ⟨?_, allMembers_append ⟨trivial, trivial, trivial⟩ (allMembers_given fun x hx => ?_)⟩
  · cases hau : q.au <;> simp [given, ascii]
  · obtain ⟨au, -, rfl⟩ := Option.map_eq_some_iff.mp hx
    trivial

theorem all_albumJson {F : Doubles} {a : AlbumRef} (h : isAlbumRef (albumJson a) = true) : (albumJson a).All F.Holds := by
  have hi : (albumJson a).field (ascii "i") = some (.num (.nat a.i)) := by simp [albumJson, Value.field, ascii, List.lookup_cons]
  have hn : (albumJson a).field (ascii "n") = some (.num (.nat a.n)) := by simp [albumJson, Value.field, ascii, List.lookup_cons]
  have hnat : ∀ n : Nat, natural (some (.num (.nat n))) = some n := by
    intro n
    simp [natural, asInt, Number.nat]
  rw [isAlbumRef, hi, hn, hnat, hnat] at h
  simp only [Bool.and_eq_true, decide_eq_true_eq] at h
  obtain ⟨-, ⟨-, hmax⟩, hlt⟩ := h
  rw [ALBUM_MAX] at hmax
  refine ⟨?_, trivial, holds_nat (by omega), holds_nat (by omega), trivial⟩
  simp [ascii]

/-! ## The builders -/

/-- An envelope that the decoder takes as it is. -/
structure Sound (F : Doubles) (e : Value) : Prop where
  all : e.All F.Holds
  taken : accept e = some e

theorem sublist_append {kvs kvs' : List (Units × Value)} {ks ks' : List Units}
    (h : List.Sublist (kvs.map Prod.fst) ks) (h' : List.Sublist (kvs'.map Prod.fst) ks') :
    List.Sublist ((kvs ++ kvs').map Prod.fst) (ks ++ ks') := by
  rw [List.map_append]
  exact h.append h'

theorem allItems_str {p : Number → Prop} (xs : List Units) : AllItems p (xs.map Value.str) := by
  rw [allItems_iff]
  intro x hx
  obtain ⟨s, -, rfl⟩ := List.mem_map.mp hx
  trivial

theorem allMembers_str {α : Type} {p : Number → Prop} {k : Units} {v : Option α} {f : α → Units} :
    AllMembers p (given k (v.map fun a => .str (f a))) := by
  refine allMembers_given fun x hx => ?_
  obtain ⟨a, -, rfl⟩ := Option.map_eq_some_iff.mp hx
  trivial

theorem natural_nat (n : Nat) : natural (some (.num (.nat n))) = some n := by
  simp [natural, asInt, Number.nat]

/-! ### The members of the longer ones -/

/-- What a file brings beside the base. -/
def fileRest (f : FileMeta) : List (Units × Value) :=
  [(ascii "cid", .str f.cid), (ascii "name", .str f.name), (ascii "size", .num (.nat f.size)),
    (ascii "mime", .str f.mime), (ascii "key", .str f.key), (ascii "chunk", .num (.nat f.chunk)),
    (ascii "chunks", .num (.nat f.chunks)), (ascii "alg", .str (ascii f.alg))] ++
    given (ascii "exp") (f.exp.map Value.num) ++ given (ascii "body") (f.body.map Value.str) ++
    given (ascii "re") (f.re.map quoteJson) ++ given (ascii "album") (f.album.map albumJson)

def fileKeys : List Units :=
  [ascii "cid", ascii "name", ascii "size", ascii "mime", ascii "key", ascii "chunk", ascii "chunks", ascii "alg",
    ascii "exp", ascii "body", ascii "re", ascii "album"]

theorem envFile_eq (b : Base) (f : FileMeta) : envFile b f = .obj (base (ascii "file") b ++ fileRest f) := by
  simp only [envFile, fileRest, List.append_assoc]

theorem keys_fileRest (f : FileMeta) : List.Sublist ((fileRest f).map Prod.fst) fileKeys :=
  sublist_append (sublist_append (sublist_append (sublist_append (List.Sublist.refl _) (keys_given _ _))
    (keys_given _ _)) (keys_given _ _)) (keys_given _ _)

theorem nodup_fileKeys : (baseKeys ++ fileKeys).Nodup := by
  simp [baseKeys, fileKeys, ascii]

/-- What a sender key brings beside the base. -/
def skdRest (f : SkdFields) : List (Units × Value) :=
  [(ascii "gid", .str f.gid), (ascii "gkPub", .str f.gkPub), (ascii "epoch", .num f.epoch),
    (ascii "secret", .str f.secret), (ascii "chain", .str f.chain)] ++
    given (ascii "ctr") (f.ctr.map fun n => .num (.nat n)) ++ [(ascii "roster", .arr (f.roster.map Value.str))] ++
    given (ascii "rmac") (f.rmac.map Value.str) ++ given (ascii "name") (f.name.map fun n => .str (clampGroupName n))

def skdKeys : List Units :=
  [ascii "gid", ascii "gkPub", ascii "epoch", ascii "secret", ascii "chain", ascii "ctr", ascii "roster", ascii "rmac",
    ascii "name"]

theorem envGroupSkd_eq (b : Base) (f : SkdFields) :
    envGroupSkd b f = .obj (base (ascii "group-skd") b ++ skdRest f) := by
  simp only [envGroupSkd, skdRest, List.append_assoc]

theorem keys_skdRest (f : SkdFields) : List.Sublist ((skdRest f).map Prod.fst) skdKeys :=
  sublist_append (sublist_append (sublist_append (sublist_append (List.Sublist.refl _) (keys_given _ _))
    (List.Sublist.refl _)) (keys_given _ _)) (keys_given _ _)

theorem nodup_skdKeys : (baseKeys ++ skdKeys).Nodup := by
  simp [baseKeys, skdKeys, ascii]

theorem kindOf_msg : kindOf (ascii "msg") = .msg := by simp [kindOf, kinds, ascii]

theorem kindOf_groupSkd : kindOf (ascii "group-skd") = .groupSkd := by simp [kindOf, kinds, ascii, List.lookup_cons]

theorem field_envMsg (b : Base) (body : Units) (format : MsgFormat) (re : Option QuoteRef) :
    (envMsg b body format re).field (ascii "re") = re.map quoteJson := by
  rw [envMsg, List.append_assoc, field_base (by simp [baseKeys, ascii]), List.lookup_append, lookup_given]
  simp [ascii, List.lookup_cons]

theorem Planned.check {F : Doubles} {f : FileMeta} (h : Planned F f) (b : Base) :
    check (.obj (base (ascii "file") b ++ fileRest f)) .file = true := by
  obtain ⟨size, chunk, m, hm, hsize, hchunk, hchunks, halg⟩ := h.plan
  obtain ⟨x, hx, -⟩ := h.exp
  obtain ⟨⟨halg', hfits, hpos, hmax, hcount⟩, -⟩ := File.planChunks_sound hm
  rw [halg'] at halg
  cases hbody : f.body <;>
    simp [Envelope.check, field_base, baseKeys, fileRest, List.lookup_append, lookup_given, ascii, List.lookup_cons, isStr,
      isNum, asStr, asNum, isOneOf, natural_nat, hx, hsize, hchunk, hchunks, halg, hbody, hfits, hpos, hmax, hcount]

theorem Planned.holds {F : Doubles} {f : FileMeta} (h : Planned F f) :
    F.Holds (.nat f.size) ∧ F.Holds (.nat f.chunk) ∧ F.Holds (.nat f.chunks) := by
  obtain ⟨size, chunk, m, hm, hsize, hchunk, hchunks, -⟩ := h.plan
  obtain ⟨⟨-, hfits, -, hmax, hcount⟩, -⟩ := File.planChunks_sound hm
  rw [File.MAX_FILE] at hfits
  rw [File.MAX_CHUNK] at hmax
  have hlt : m.chunks < 2 ^ 53 := by
    rw [hcount, File.count]
    exact Nat.max_lt.mpr ⟨by decide, Nat.lt_of_le_of_lt (Nat.div_le_self _ _) (by omega)⟩
  rw [hsize, hchunk, hchunks]
  exact ⟨holds_nat (by omega), holds_nat (by omega), holds_nat hlt⟩

section
variable {F : Doubles} {b : Base} {rest : List (Units × Value)} (hts : F.Holds b.ts) (hseq : F.Holds b.seq)

include hts hseq

theorem Sound.of (kind : Kind) {t : Units} (hkind : kindOf t = kind) (hkeys : (baseKeys ++ rest.map Prod.fst).Nodup)
    (hrest : AllMembers F.Holds rest) (hcheck : check (.obj (base t b ++ rest)) kind = true)
    (hsame : sanitize (.obj (base t b ++ rest)) kind = .obj (base t b ++ rest)) : Sound F (.obj (base t b ++ rest)) where
  all := all_base hts hseq hkeys hrest
  taken := accept_base (hkind.symm ▸ hcheck) (hkind.symm ▸ hsame)

theorem all_envMsg (body : Units) (format : MsgFormat) (re : Option QuoteRef) :
    (envMsg b body format re).All F.Holds := by
  have hkeys : (baseKeys ++ [ascii "body", ascii "format", ascii "re"]).Nodup := by simp [baseKeys, ascii]
  rw [envMsg, List.append_assoc]
  refine all_base hts hseq (hkeys.sublist ?_) ?_
  · exact (sublist_append (List.Sublist.refl _) (keys_given _ _)).append_left baseKeys
  · refine allMembers_append ⟨trivial, trivial, trivial⟩ (allMembers_given fun x hx => ?_)
    obtain ⟨q, -, rfl⟩ := Option.map_eq_some_iff.mp hx
    exact all_quoteJson q

theorem sound_envMsg (body : Units) (format : MsgFormat) {re : Option QuoteRef} (hre : ∀ q, re = some q → Quoted q) :
    Sound F (envMsg b body format re) := by
  refine ⟨all_envMsg hts hseq body format re, ?_⟩
  have hsame : sanitizeQuote (envMsg b body format re) = envMsg b body format re := by
    refine sanitizeQuote_of fun x hx => ?_
    rw [field_envMsg] at hx
    obtain ⟨q, hq, rfl⟩ := Option.map_eq_some_iff.mp hx
    exact (hre q hq).isQuoteRef
  rw [envMsg, List.append_assoc] at hsame ⊢
  refine accept_base ?_ ?_
  · rw [kindOf_msg]
    cases format
    simp [check, field_base, baseKeys, ascii, List.lookup_cons, isStr, asStr, isOneOf, FORMATS, MsgFormat.text]
  · rw [kindOf_msg]
    exact hsame

theorem sound_envTyping (state : TypingState) : Sound F (envTyping b state) := by
  refine Sound.of hts hseq .typing ?_ ?_ ⟨trivial, trivial⟩ ?_ rfl
  · simp [kindOf, kinds, ascii, List.lookup_cons]
  · simp [baseKeys, ascii]
  · cases state <;> simp [check, field_base, baseKeys, ascii, asStr, isOneOf, TYPING, TypingState.text]

theorem sound_envPresence (state : PresenceState) : Sound F (envPresence b state) := by
  refine Sound.of hts hseq .presence ?_ ?_ ⟨trivial, trivial⟩ ?_ rfl
  · simp [kindOf, kinds, ascii, List.lookup_cons]
  · simp [baseKeys, ascii]
  · cases state <;>
      simp [check, field_base, baseKeys, ascii, asStr, isOneOf, PRESENCE, PresenceState.text]

theorem sound_envReaction (to_ emoji : Units) : Sound F (envReaction b to_ emoji) := by
  refine Sound.of hts hseq .reaction ?_ ?_ ⟨trivial, trivial, trivial⟩ ?_ rfl
  · simp [kindOf, kinds, ascii, List.lookup_cons]
  · simp [baseKeys, ascii]
  · simp [check, field_base, baseKeys, ascii, List.lookup_cons, isStr, asStr]

theorem sound_envEdit {to_ body : Units} (hto : to_ ≠ []) (hbody : body ≠ []) (format : MsgFormat) :
    Sound F (envEdit b to_ body format) := by
  have hto := List.length_pos_of_ne_nil hto
  have hbody := List.length_pos_of_ne_nil hbody
  refine Sound.of hts hseq .edit ?_ ?_ ⟨trivial, trivial, trivial, trivial⟩ ?_ rfl
  · simp [kindOf, kinds, ascii, List.lookup_cons]
  · simp [baseKeys, ascii]
  · cases format
    simp [check, field_base, baseKeys, ascii, List.lookup_cons, isFilled, asStr, isOneOf, FORMATS, MsgFormat.text, hto, hbody]

theorem sound_envKnock : Sound F (envKnock b) := by
  rw [envKnock, ← List.append_nil (base (ascii "knock") b)]
  refine Sound.of hts hseq .knock ?_ ?_ trivial rfl rfl
  · simp [kindOf, kinds, ascii, List.lookup_cons]
  · simp [baseKeys, ascii]

theorem sound_envRtc (to_ : Units) {sig : Value} (hsig : sig.isNull = false) (hall : sig.All F.Holds) :
    Sound F (envRtc b to_ sig) := by
  refine Sound.of hts hseq .rtc ?_ ?_ ⟨trivial, hall, trivial⟩ ?_ rfl
  · simp [kindOf, kinds, ascii, List.lookup_cons]
  · simp [baseKeys, ascii]
  · simp [check, field_base, baseKeys, ascii, List.lookup_cons, isStr, asStr, hsig]

theorem sound_envAck (ref : Units) {rts : Number} (hrts : F.Holds rts) : Sound F (envAck b ref rts) := by
  refine Sound.of hts hseq .ack ?_ ?_ ⟨trivial, hrts, trivial⟩ ?_ rfl
  · simp [kindOf, kinds, ascii, List.lookup_cons]
  · simp [baseKeys, ascii]
  · simp [check, field_base, baseKeys, ascii, List.lookup_cons, isStr, asStr, isNum, asNum]

theorem sound_envGroupSkdReq (gid : Units) {epoch : Number} (hepoch : F.Holds epoch) :
    Sound F (envGroupSkdReq b gid epoch) := by
  refine Sound.of hts hseq .groupSkdReq ?_ ?_ ⟨trivial, hepoch, trivial⟩ ?_ rfl
  · simp [kindOf, kinds, ascii, List.lookup_cons]
  · simp [baseKeys, ascii]
  · simp [check, field_base, baseKeys, ascii, List.lookup_cons, isStr, asStr, isNum, asNum]

theorem sound_envFile {f : FileMeta} (h : Planned F f) : Sound F (envFile b f) := by
  obtain ⟨x, hx, hexp⟩ := h.exp
  obtain ⟨hsize, hchunk, hchunks⟩ := h.holds
  have hquote : ∀ x, f.re.map quoteJson = some x → isQuoteRef x = true ∧ x.All F.Holds := by
    intro x hx
    obtain ⟨q, hq, rfl⟩ := Option.map_eq_some_iff.mp hx
    exact ⟨(h.re q hq).isQuoteRef, all_quoteJson q⟩
  have halbum : ∀ x, f.album.map albumJson = some x → isAlbumRef x = true ∧ x.All F.Holds := by
    intro x hx
    obtain ⟨a, ha, rfl⟩ := Option.map_eq_some_iff.mp hx
    exact ⟨h.album a ha, all_albumJson (h.album a ha)⟩
  have hre : ∀ x, (Value.obj (base (ascii "file") b ++ fileRest f)).field (ascii "re") = some x →
      isQuoteRef x = true := by
    intro x hx
    rw [field_base (by simp [baseKeys, ascii])] at hx
    refine (hquote x ?_).1
    simpa [fileRest, List.lookup_append, lookup_given, ascii, List.lookup_cons] using hx
  have hal : ∀ x, (Value.obj (base (ascii "file") b ++ fileRest f)).field (ascii "album") = some x →
      isAlbumRef x = true := by
    intro x hx
    rw [field_base (by simp [baseKeys, ascii])] at hx
    refine (halbum x ?_).1
    simpa [fileRest, List.lookup_append, lookup_given, ascii, List.lookup_cons] using hx
  rw [envFile_eq]
  refine Sound.of hts hseq .file ?_ (nodup_fileKeys.sublist ((keys_fileRest f).append_left baseKeys)) ?_ (h.check b) ?_
  · simp [kindOf, kinds, ascii, List.lookup_cons]
  · refine allMembers_append (allMembers_append (allMembers_append (allMembers_append ?_ ?_) ?_) ?_) ?_
    · exact ⟨trivial, trivial, hsize, trivial, trivial, hchunk, hchunks, trivial, trivial⟩
    · refine allMembers_given fun y hy => ?_
      rw [hx] at hy
      obtain rfl := Option.some.inj hy
      exact hexp
    · exact allMembers_str
    · exact allMembers_given fun y hy => (hquote y hy).2
    · exact allMembers_given fun y hy => (halbum y hy).2
  · rw [sanitize, sanitizeQuote_of hre, sanitizeAlbum_of hal]

theorem sound_envGroupSkd {f : SkdFields} (hepoch : F.Holds f.epoch) (hctr : ∀ n, f.ctr = some n → F.Holds (.nat n)) :
    Sound F (envGroupSkd b f) := by
  have hrest : AllMembers F.Holds (skdRest f) := by
    refine allMembers_append (allMembers_append (allMembers_append (allMembers_append ?_ ?_) ?_) ?_) allMembers_str
    · exact ⟨trivial, trivial, hepoch, trivial, trivial, trivial⟩
    · refine allMembers_given fun y hy => ?_
      obtain ⟨n, hn, rfl⟩ := Option.map_eq_some_iff.mp hy
      exact hctr n hn
    · exact ⟨allItems_str f.roster, trivial⟩
    · exact allMembers_str
  have hkeys := nodup_skdKeys.sublist ((keys_skdRest f).append_left baseKeys)
  have hname : ∀ x, (Value.obj (base (ascii "group-skd") b ++ skdRest f)).field (ascii "name") = some x →
      ∃ n, x = .str n ∧ clampGroupName n = n := by
    intro x hx
    rw [field_base (by simp [baseKeys, ascii])] at hx
    have hname : f.name.map (fun n => Value.str (clampGroupName n)) = some x := by
      simpa [skdRest, List.lookup_append, lookup_given, ascii, List.lookup_cons] using hx
    obtain ⟨n, -, rfl⟩ := Option.map_eq_some_iff.mp hname
    exact ⟨_, rfl, clampGroupName_clampGroupName n⟩
  rw [envGroupSkd_eq]
  refine Sound.of hts hseq .groupSkd kindOf_groupSkd hkeys hrest ?_ ?_
  · cases hn : f.ctr <;>
      simp [check, field_base, baseKeys, skdRest, List.lookup_append, lookup_given, ascii, List.lookup_cons, isStr, asStr,
        isNum, asNum, natural_nat, hn]
  · exact sanitizeSkdName_of (all_base hts hseq hkeys hrest) hname

theorem Call.sound {call : Call} (h : call.Allowed F) : Sound F (call.env b) := by
  cases call with
  | msg body format re => exact sound_envMsg hts hseq body format h
  | typing state => exact sound_envTyping hts hseq state
  | presence state => exact sound_envPresence hts hseq state
  | reaction to_ emoji => exact sound_envReaction hts hseq to_ emoji
  | edit to_ body format => exact sound_envEdit hts hseq h.1 h.2 format
  | knock => exact sound_envKnock hts hseq
  | file f => exact sound_envFile hts hseq h
  | rtc to_ sig => exact sound_envRtc hts hseq to_ h.1 h.2
  | ack ref rts => exact sound_envAck hts hseq ref h
  | groupSkd f => exact sound_envGroupSkd hts hseq h.1 h.2
  | groupSkdReq gid epoch => exact sound_envGroupSkdReq hts hseq gid h

end

/-- What a builder makes of what its callers pass is decoded as it is; and so is, a second time, whatever was decoded once. -/
theorem envelope_codec (F : Doubles) :
    (∀ (b : Base) (call : Call), F.Holds b.ts → F.Holds b.seq → call.Allowed F →
      decodeEnvelope F (encodeEnvelope F (call.env b)) = some (call.env b)) ∧
    (∀ bytes e, decodeEnvelope F bytes = some e → e.Finite → decodeEnvelope F (encodeEnvelope F e) = some e) := by
  refine ⟨fun b call hts hseq h => ?_, fun bytes e => decodeEnvelope_again⟩
  have hsound := Call.sound hts hseq h
  exact decodeEnvelope_encodeEnvelope hsound.all hsound.taken

/-- The bytes of a message are those whose length was counted against the relay's ceiling. -/
theorem encodeEnvelope_msg (F : Doubles) (id : Message.MsgId) {ts seq : Nat} (hts : ts < 2 ^ 53) (hseq : seq < 2 ^ 53)
    (body : Units) (re : Option QuoteRef) : encodeEnvelope F (envMsg ⟨id.units, .nat ts, .nat seq⟩ body .plain re) =
      Message.encodeEnvelope (Message.envMsg id ts seq body re) := by
  have hnum : ∀ {n : Nat}, n < 2 ^ 53 → stringify F (.num (.nat n)) = num n := fun hn => by
    rw [Number.nat, stringify, F.write_nat hn]
  have hstr : ∀ s, stringify F (.str s) = quote s := fun s => by rw [stringify]
  have hquote : ∀ q : QuoteRef, stringify F (quoteJson q) = q.json := by
    intro q
    rw [quoteJson, stringify_obj, QuoteRef.json]
    cases hau : q.au <;> simp [given, hstr]
  have hone : ENVELOPE_V < 2 ^ 53 := by decide
  rw [encodeEnvelope, encode, Message.encodeEnvelope, envMsg, stringify_obj, Message.MsgEnv.json]
  cases re <;> simp [base, given, hnum hts, hnum hseq, hnum hone, hstr, hquote, Message.envMsg, MsgFormat.text]

/-! ## Ids that are empty -/

def someBase : Base := ⟨ascii "m", .nat 1, .nat 2⟩

theorem holds_someBase : Doubles.whole.Holds someBase.ts ∧ Doubles.whole.Holds someBase.seq :=
  ⟨holds_nat (by decide), holds_nat (by decide)⟩

theorem envelope_codec_reply : decodeEnvelope Doubles.whole (encodeEnvelope Doubles.whole
      (envMsg someBase (ascii "b") .plain (some (Message.makeQuote (ascii "a") (ascii "b") none)))) =
    some (envMsg someBase (ascii "b") .plain (some (Message.makeQuote (ascii "a") (ascii "b") none))) := by
  refine (envelope_codec Doubles.whole).1 someBase (.msg _ _ _) holds_someBase.1 holds_someBase.2 fun q hq => ?_
  obtain rfl := Option.some.inj hq
  exact ⟨ascii "a", ascii "b", none, by simp [ascii], by simp [ascii], rfl⟩

/-- A reply to a message without an id comes without its quote, and a correction of one is refused. -/
theorem empty_id_lost :
    decodeEnvelope Doubles.whole
        (encodeEnvelope Doubles.whole (envMsg someBase [] .plain (some (Message.makeQuote [] [] none)))) ≠
      some (envMsg someBase [] .plain (some (Message.makeQuote [] [] none))) ∧
    decodeEnvelope Doubles.whole (encodeEnvelope Doubles.whole (envEdit someBase [] (ascii "b") .plain)) = none := by
  constructor
  · intro h
    have hall := all_envMsg (F := Doubles.whole) holds_someBase.1 holds_someBase.2 [] .plain
      (some (Message.makeQuote [] [] none))
    rw [decodeEnvelope, encodeEnvelope, decode_encode hall, Option.bind_some] at h
    obtain ⟨-, t, ht, -, -, -, -, hsame⟩ := accept_some.mp h
    have hmsg : t = ascii "msg" := by
      rw [envMsg, List.append_assoc] at ht
      simpa [Value.field, base, ascii, List.lookup_cons, asStr] using ht.symm
    rw [hmsg, kindOf_msg] at hsame
    have hquote := quote_sanitizeQuote (quoteJson (Message.makeQuote [] [] none)) (by
      rw [← sanitize, ← hsame, field_envMsg]
      rfl)
    have hid : (quoteJson (Message.makeQuote [] [] none)).field (ascii "id") = some (.str []) := rfl
    rw [isQuoteRef, hid] at hquote
    cases hquote
  · have hall : (envEdit someBase [] (ascii "b") .plain).All Doubles.whole.Holds :=
      all_base holds_someBase.1 holds_someBase.2 (by simp [baseKeys, ascii]) ⟨trivial, trivial, trivial, trivial⟩
    rw [decodeEnvelope, encodeEnvelope, decode_encode hall, Option.bind_some]
    simp [accept, envEdit, base, Value.field, ascii, List.lookup_cons, asNum, asStr, isStr, isNum, kindOf, kinds, check, isFilled]

end EncedoChat.Envelope
