import EncedoChat.Envelope.Codec

/-!
# What was decoded is decoded again

The three passes that drop or cut a field leave what the checks look at, and have nothing more to do on what they made.
-/

namespace EncedoChat.Envelope

open Units JsonText

section
variable {m : Value} {k : Units} {p : Number → Prop}

/-! ## What the passes leave -/

theorem field_sanitizeQuote (h : k ≠ ascii "re") : (sanitizeQuote m).field k = m.field k := by
  rw [sanitizeQuote]
  split
  · split
    · rfl
    · exact field_remove_ne h
  · rfl

theorem field_sanitizeAlbum (h : k ≠ ascii "album") : (sanitizeAlbum m).field k = m.field k := by
  rw [sanitizeAlbum]
  split
  · split
    · rfl
    · exact field_remove_ne h
  · rfl

theorem field_sanitizeSkdName (h : k ≠ ascii "name") : (sanitizeSkdName m).field k = m.field k := by
  rw [sanitizeSkdName]
  split
  · rfl
  · exact field_put_ne h
  · exact field_remove_ne h

theorem all_sanitizeQuote (h : m.All p) : (sanitizeQuote m).All p := by
  rw [sanitizeQuote]
  split
  · split
    · exact h
    · exact all_remove h _
  · exact h

theorem all_sanitizeAlbum (h : m.All p) : (sanitizeAlbum m).All p := by
  rw [sanitizeAlbum]
  split
  · split
    · exact h
    · exact all_remove h _
  · exact h

theorem all_sanitizeSkdName (h : m.All p) : (sanitizeSkdName m).All p := by
  rw [sanitizeSkdName]
  split
  · exact h
  · rename_i hname
    exact all_put h (by rw [hname]; rfl) trivial
  · exact all_remove h _

/-! ## A second pass -/

/-- There is no quote, or it is one that would render. -/
theorem sanitizeQuote_of (h : ∀ re, m.field (ascii "re") = some re → isQuoteRef re = true) : sanitizeQuote m = m := by
  rw [sanitizeQuote]
  split
  · rename_i re hre
    rw [if_pos (h re hre)]
  · rfl

theorem quote_sanitizeQuote : ∀ re, (sanitizeQuote m).field (ascii "re") = some re → isQuoteRef re = true := by
  intro re h
  rw [sanitizeQuote] at h
  split at h
  · rename_i re' hre'
    split at h
    · rename_i hok
      rw [hre'] at h
      obtain rfl := Option.some.inj h
      exact hok
    · rw [field_remove_self] at h
      cases h
  · rename_i hnone
    rw [hnone] at h
    cases h

theorem sanitizeAlbum_of (h : ∀ album, m.field (ascii "album") = some album → isAlbumRef album = true) :
    sanitizeAlbum m = m := by
  rw [sanitizeAlbum]
  split
  · rename_i album halbum
    rw [if_pos (h album halbum)]
  · rfl

theorem album_sanitizeAlbum : ∀ album, (sanitizeAlbum m).field (ascii "album") = some album → isAlbumRef album = true := by
  intro album h
  rw [sanitizeAlbum] at h
  split at h
  · rename_i album' halbum'
    split at h
    · rename_i hok
      rw [halbum'] at h
      obtain rfl := Option.some.inj h
      exact hok
    · rw [field_remove_self] at h
      cases h
  · rename_i hnone
    rw [hnone] at h
    cases h

theorem clampGroupName_clampGroupName (n : Units) : clampGroupName (clampGroupName n) = clampGroupName n :=
  cut_cut GROUP_NAME_MAX n

/-- There is no name, or it is a string that the cut leaves. -/
theorem sanitizeSkdName_of (hall : m.All p)
    (h : ∀ name, m.field (ascii "name") = some name → ∃ n, name = .str n ∧ clampGroupName n = n) :
    sanitizeSkdName m = m := by
  rw [sanitizeSkdName]
  split
  · rfl
  · rename_i n hn
    obtain ⟨n', heq, hclamp⟩ := h _ hn
    obtain rfl := Value.str.inj heq
    rw [hclamp]
    exact put_same hall hn
  · rename_i v hno hv
    obtain ⟨n, hn, -⟩ := h _ hv
    exact absurd hn (hno n)

theorem name_sanitizeSkdName :
    ∀ name, (sanitizeSkdName m).field (ascii "name") = some name → ∃ n, name = .str n ∧ clampGroupName n = n := by
  intro name h
  rw [sanitizeSkdName] at h
  split at h
  · rename_i hnone
    rw [hnone] at h
    cases h
  · rename_i n hn
    rw [field_put_self (by rw [hn]; rfl)] at h
    exact ⟨_, (Option.some.inj h).symm, clampGroupName_clampGroupName n⟩
  · rw [field_remove_self] at h
    cases h

/-! ## Each case -/

theorem sanitize_sanitize (h : m.All p) (kind : Kind) : sanitize (sanitize m kind) kind = sanitize m kind := by
  cases kind with
  | msg => exact sanitizeQuote_of quote_sanitizeQuote
  | file =>
      have hquote : sanitizeQuote (sanitizeAlbum (sanitizeQuote m)) = sanitizeAlbum (sanitizeQuote m) := by
        apply sanitizeQuote_of
        rw [field_sanitizeAlbum (by simp [ascii])]
        exact quote_sanitizeQuote
      rw [sanitize, sanitize, hquote]
      exact sanitizeAlbum_of album_sanitizeAlbum
  | groupSkd => exact sanitizeSkdName_of (all_sanitizeSkdName h) name_sanitizeSkdName
  | typing | presence | reaction | edit | knock | rtc | ack | groupSkdReq | ikRotate | unknown => rfl

theorem all_sanitize (h : m.All p) (kind : Kind) : (sanitize m kind).All p := by
  cases kind with
  | msg => exact all_sanitizeQuote h
  | file => exact all_sanitizeAlbum (all_sanitizeQuote h)
  | groupSkd => exact all_sanitizeSkdName h
  | typing | presence | reaction | edit | knock | rtc | ack | groupSkdReq | ikRotate | unknown => exact h

theorem field_sanitize (kind : Kind) (hre : k ≠ ascii "re") (halbum : k ≠ ascii "album") (hname : k ≠ ascii "name") :
    (sanitize m kind).field k = m.field k := by
  cases kind with
  | msg => exact field_sanitizeQuote hre
  | file => exact (field_sanitizeAlbum halbum).trans (field_sanitizeQuote hre)
  | groupSkd => exact field_sanitizeSkdName hname
  | typing | presence | reaction | edit | knock | rtc | ack | groupSkdReq | ikRotate | unknown => rfl

theorem check_sanitize (kind : Kind) : check (sanitize m kind) kind = check m kind := by
  cases kind with
  | msg => simp (disch := simp [ascii]) only [check, sanitize, field_sanitizeQuote]
  | file => simp (disch := simp [ascii]) only [check, sanitize, field_sanitizeAlbum, field_sanitizeQuote]
  | groupSkd => simp (disch := simp [ascii]) only [check, sanitize, field_sanitizeSkdName]
  | typing | presence | reaction | edit | knock | rtc | ack | groupSkdReq | ikRotate | unknown => rfl

theorem accept_some {v : Value} : accept m = some v ↔ asNum (m.field (ascii "v")) = some (.nat Message.ENVELOPE_V) ∧
    ∃ t, asStr (m.field (ascii "t")) = some t ∧ isStr (m.field (ascii "id")) = true ∧ isNum (m.field (ascii "ts")) = true ∧
      isNum (m.field (ascii "seq")) = true ∧ check m (kindOf t) = true ∧ v = sanitize m (kindOf t) := by
  rw [accept]
  constructor
  · intro h
    split at h
    · cases h
    rename_i hv
    split at h
    · rename_i t ht
      split at h
      · rename_i hok
        simp only [Bool.and_eq_true] at hok
        obtain ⟨⟨⟨hid, hts⟩, hseq⟩, hcheck⟩ := hok
        exact ⟨not_not.mp hv, t, ht, hid, hts, hseq, hcheck, (Option.some.inj h).symm⟩
      · cases h
    · cases h
  · rintro ⟨hv, t, ht, hid, hts, hseq, hcheck, rfl⟩
    rw [if_neg (not_not.mpr hv), ht]
    dsimp only
    rw [hid, hts, hseq, hcheck]
    rfl

/-- What was taken is taken as it is. -/
theorem accept_accept {v : Value} (hall : m.All p) (h : accept m = some v) : accept v = some v := by
  obtain ⟨hv, t, ht, hid, hts, hseq, hcheck, rfl⟩ := accept_some.mp h
  have hfield : ∀ k, k ≠ ascii "re" → k ≠ ascii "album" → k ≠ ascii "name" → (sanitize m (kindOf t)).field k = m.field k :=
    fun k => field_sanitize (kindOf t)
  have hv' := hfield (ascii "v") (by simp [ascii]) (by simp [ascii]) (by simp [ascii])
  have ht' := hfield (ascii "t") (by simp [ascii]) (by simp [ascii]) (by simp [ascii])
  have hid' := hfield (ascii "id") (by simp [ascii]) (by simp [ascii]) (by simp [ascii])
  have hts' := hfield (ascii "ts") (by simp [ascii]) (by simp [ascii]) (by simp [ascii])
  have hseq' := hfield (ascii "seq") (by simp [ascii]) (by simp [ascii]) (by simp [ascii])
  refine accept_some.mpr ⟨hv' ▸ hv, t, ht' ▸ ht, hid' ▸ hid, hts' ▸ hts, hseq' ▸ hseq, ?_, ?_⟩
  · rw [check_sanitize, hcheck]
  · exact (sanitize_sanitize hall (kindOf t)).symm

theorem all_accept {v : Value} (hall : m.All p) (h : accept m = some v) : v.All p := by
  obtain ⟨-, t, -, -, -, -, -, rfl⟩ := accept_some.mp h
  exact all_sanitize hall _

end

section
variable {F : Doubles}

/-- An envelope that is taken as it is comes back from its bytes. -/
theorem decodeEnvelope_encodeEnvelope {e : Value} (h : e.All F.Holds) (haccept : accept e = some e) :
    decodeEnvelope F (encodeEnvelope F e) = some e := by
  rw [decodeEnvelope, encodeEnvelope, decode_encode h, Option.bind_some, haccept]

/-- What was decoded, its numbers being finite, is decoded again from what it is encoded to. -/
theorem decodeEnvelope_again {bytes : Bytes} {e : Value} (h : decodeEnvelope F bytes = some e) (hfinite : e.Finite) :
    decodeEnvelope F (encodeEnvelope F e) = some e := by
  obtain ⟨m, hm, haccept⟩ := Option.bind_eq_some_iff.mp h
  have hreads : m.All F.Reads := parse_reads hm
  exact decodeEnvelope_encodeEnvelope (holds_of_finite (all_accept hreads haccept) hfinite) (accept_accept hreads haccept)

end

end EncedoChat.Envelope
