import EncedoChat.Eh2.Ideal

/-!
# What a failed `decrypt` leaves behind

`decrypt` calls itself transactional. It is, but for one exit: the encapsulation to the peer's fresh key
is made after the commit, and it can throw.
-/

namespace EncedoChat.Eh2

variable {S : Suite} {o : Opts}

namespace Ratchet

/-- The state is the old one, or the old one without its expired keys. -/
def Unchanged (o : Opts) (now : Time) (s s' : Ratchet S) : Prop := s' = s ∨ s' = s.prune o now

/-- The frame opens under the key its header selects, and carries an encapsulation key, not yet
answered, that the KEM refuses. -/
def BadPqPub (o : Opts) (opens : Open S) (s : Ratchet S) (d : DecryptDraws S) (frame : Bytes) : Prop :=
  ∃ h len mk pt p, decodeHeader frame = some (h, len) ∧ Selects o (s.prune o d.pruneAt) h mk ∧
    OpensAt opens mk h.n (frame.take len) (frame.drop len) pt ∧
    h.pqPub = some p ∧ s.seenPeerPqPub ≠ some p ∧ S.encapsulate p d.coins = none

variable {opens : Open S} {s s' : Ratchet S} {d : DecryptDraws S} {h : Header} {header ct pt : Bytes}

/-- A frame that opens moves the state: the key is spent, the chain has moved on, or it has turned. -/
theorem Opens.moves {now : Time} (hop : Opens o opens (s.prune o now) d h header ct s' pt) :
    ¬Unchanged o now s s' := by
  cases hop with
  | stashed hp _ =>
      obtain ⟨e, he, -⟩ := SkippedKeys.peek_eq_some.mp hp
      have hgone : ((s.prune o now).skipped.drop h.dhPub h.n).entry h.dhPub h.n = none := by
        rw [SkippedKeys.entry_drop, if_pos ⟨rfl, rfl⟩]
      rintro (heq | heq)
      · have hs := congrArg (fun t : Ratchet S => t.skipped.entry h.dhPub h.n) heq
        dsimp only at hs
        rw [hgone, (SkippedKeys.entry_prune.mp he).1] at hs
        cases hs
      · have hs := congrArg (fun t : Ratchet S => t.skipped.entry h.dhPub h.n) heq
        dsimp only at hs
        rw [hgone, he] at hs
        cases hs
  | same _ _ _ hle _ _ =>
      have hle' : s.nRecv ≤ h.n := hle
      rintro (heq | heq) <;> have hn := congrArg Ratchet.nRecv heq <;>
        simp only [afterSame, prune] at hn <;> omega
  | @turned self dh ikm closing _ _ hne _ _ _ _ _ _ =>
      have hne' : h.dhPub ≠ s.dhPeerPub := hne
      obtain ⟨_, _, _, he⟩ := countAnswer_eq (afterTurn o (s.prune o now) d h closing ikm) h d.pqAt
      rw [he]
      rintro (heq | heq)
      · exact hne' (congrArg Ratchet.dhPeerPub heq)
      · exact hne' (congrArg Ratchet.dhPeerPub heq)

/-- A call that delivers nothing leaves the state as it was, exactly when the frame is not one that
opens and whose encapsulation key the KEM refuses. -/
theorem decrypt_unchanged_iff (o : Opts) (opens : Open S) (s : Ratchet S) (d : DecryptDraws S)
    (frame : Bytes) :
    ((∀ pt, (decrypt o opens s d frame).2 ≠ .ok pt) →
        Unchanged o d.pruneAt s (decrypt o opens s d frame).1)
      ↔ ¬BadPqPub o opens s d frame := by
  constructor
  · rintro hun ⟨h, len, mk, pt, p, hd, hsel, hpt, hp, hseen, hkem⟩
    obtain ⟨s₁, hop⟩ := hsel.toOpens (d := d) hpt
    have hnote : notePeerPqPub s₁ d.coins h.pqPub = none :=
      notePeerPqPub_none.mpr ⟨p, hp, by rw [hop.seenPeerPqPub]; exact hseen, hkem⟩
    have hdec : decrypt o opens s d frame = (s₁, .error .kem) := by
      rw [decrypt, hd]
      simp only [openFrame_ok.mpr hop, hnote]
    rw [hdec] at hun
    exact hop.moves (hun fun pt h => by cases h)
  · intro hbad hno
    rcases decrypt_cases o opens s d frame with ⟨r, hdec, -⟩ | ⟨h, len, r, -, -, hdec⟩ |
      ⟨h, len, s₁, pt, hd, hop, ⟨hnote, -⟩ | ⟨s₂, -, hdec⟩⟩
    · rw [hdec]; exact Or.inl rfl
    · rw [hdec]; exact Or.inr rfl
    · obtain ⟨mk, hsel, hpt⟩ := hop.selects
      obtain ⟨p, hp, hseen, hkem⟩ := notePeerPqPub_none.mp hnote
      rw [hop.seenPeerPqPub] at hseen
      exact absurd ⟨h, len, mk, pt, p, hd, hsel, hpt, hp, hseen, hkem⟩ hbad
    · exact absurd (by rw [hdec]) (hno pt)

end Ratchet

/-! ## A key the KEM refuses -/

namespace Symbolic

/-- The responder's side of a handshake, about to receive its first frame. -/
def freshResponder : Ratchet suite :=
  ratchetFrom ⟨.responder, .secret 0, none, pub 1, (1, 2)⟩ 0

def someDraws : DecryptDraws suite := ⟨0, fun _ => 0, fun _ => 0, 0, (0 : UInt8)⟩

/-- The initiator's first frame, its header offering two bytes that are no encapsulation key. -/
def badOffer : Sealed suite :=
  let mk : Key := .message (.chain (.secret 0) (.classical (1, 2)))
  let header := encodeHeader ⟨pub 1, 0, 0, none, some [7, 7]⟩
  ⟨⟨mk, Bytes.u32be 0, header, suite.aeadSeal mk (Bytes.u32be 0) header [42], [42]⟩, .initiator⟩

/-- The authentic frame makes `decrypt` throw, and its key is spent all the same. -/
theorem badOffer_spends_its_key :
    let r := freshResponder.decrypt {} (openIn [badOffer]) someDraws badOffer.frame
    r.2 = .error .kem ∧ ¬Ratchet.Unchanged {} someDraws.pruneAt freshResponder r.1 := by
  have hn : (freshResponder.decrypt {} (openIn [badOffer]) someDraws badOffer.frame).1.nRecv = 1 := by
    decide
  refine ⟨by decide, ?_⟩
  rintro (h | h) <;> exact absurd (hn.symm.trans (congrArg Ratchet.nRecv h)) (by decide)

end Symbolic

end EncedoChat.Eh2
