import EncedoChat.Xfer.Session

/-!
# What a session sends

The chunks sent under an id are those of one file from the first on. A turn that is no offer, no acceptance and no
step of the pump sends no chunk and leaves the sender where it was, or drops it.
-/

namespace EncedoChat.Xfer

variable {μ : Type}

/-- Neither an offer nor a chunk. -/
def Frame.plain : Frame μ → Bool
  | offer _ | chunk _ _ _ => false
  | _ => true

/-- The chunks a channel has carried under an id. -/
def chunksUnder (id : Nat) (wire : List (Frame μ)) : List (Nat × Bytes) :=
  wire.filterMap (fun f => match f with
    | .chunk id' i body => if id' = id then some (i, body) else none
    | _ => none)

/-- The first chunks of a file. -/
def firstChunks (file : Bytes) (n : Nat) : List (Nat × Bytes) :=
  (List.range n).map (fun i => (i, Session.chunkOf file i))

theorem firstChunks_succ (file : Bytes) (n : Nat) :
    firstChunks file (n + 1) = firstChunks file n ++ [(n, Session.chunkOf file n)] := by
  simp [firstChunks, List.range_succ]

theorem chunksUnder_append (id : Nat) (wire more : List (Frame μ)) :
    chunksUnder id (wire ++ more) = chunksUnder id wire ++ chunksUnder id more :=
  List.filterMap_append

theorem chunksUnder_nil_of {id : Nat} {frames : List (Frame μ)} (h : ∀ i body, .chunk id i body ∉ frames) :
    chunksUnder id frames = [] := by
  apply List.filterMap_eq_nil_iff.mpr
  intro f hf
  cases f with
  | chunk id' i body =>
      apply if_neg
      rintro rfl
      exact h i body hf
  | _ => rfl

theorem mem_chunksUnder {id i : Nat} {body : Bytes} {wire : List (Frame μ)} (h : .chunk id i body ∈ wire) :
    (i, body) ∈ chunksUnder id wire :=
  List.mem_filterMap.mpr ⟨_, h, if_pos rfl⟩

/-- What the pump holds is the next chunk of the file. -/
def Fits (file : Bytes) (s : Sender μ) : Option Pump → Prop
  | none => True
  | some (.drain i) => i = s.sentIdx ∧ i < s.offer.chunks
  | some (.slice i body) => i = s.sentIdx ∧ i < s.offer.chunks ∧ body = Session.chunkOf file i

/-- What the pump of an earlier transfer may hold when the next one is accepted. -/
def FitsStart (file : Bytes) : Option Pump → Prop
  | none => True
  | some (.drain i) => i = 0
  | some (.slice i body) => i = 0 ∧ body = Session.chunkOf file 0

instance (file : Bytes) : (p : Option Pump) → Decidable (FitsStart file p)
  | none => isTrue trivial
  | some (.drain i) => inferInstanceAs (Decidable (i = 0))
  | some (.slice i body) => inferInstanceAs (Decidable (i = 0 ∧ body = Session.chunkOf file 0))

/-- The sender of a session is at its place in the file it has offered. -/
structure Placed (offered : List (Nat × Bytes)) (wire : List (Frame μ)) (pump : Option Pump) (s : Sender μ)
    (file : Bytes) : Prop where
  offered : (s.offer.id, file) ∈ offered
  size : s.offer.size = file.length
  chunks : s.offer.chunks = chunksOf file.length
  chunk : s.offer.chunk = CHUNK
  few : s.sentIdx ≤ s.offer.chunks
  sent : chunksUnder s.offer.id wire = firstChunks file s.sentIdx
  fresh : s.state = .offering → s.sentIdx = 0
  fits : s.state = .sending → Fits file s pump

/-- Everything a session has sent, and the sender it has. -/
structure Sends (offered : List (Nat × Bytes)) (x : Session μ) (wire : List (Frame μ)) : Prop where
  ids : ∀ a ∈ offered, ∀ b ∈ offered, a.1 = b.1 → a = b
  placed : ∀ s, x.send = some s → ∃ file, x.file = some file ∧ Placed offered wire x.pump s file
  all : ∀ a ∈ offered, ∃ n ≤ chunksOf a.2.length, chunksUnder a.1 wire = firstChunks a.2 n
  only : ∀ id i body, .chunk id i body ∈ wire → ∃ file, (id, file) ∈ offered
  offers : ∀ o, .offer o ∈ wire → ∃ file, (o.id, file) ∈ offered ∧ o.size = file.length

/-- A turn that moves no file: the sender is dropped, or goes on with what it has. -/
structure Keeps (x : Session μ) (r : Session μ × Out μ) : Prop where
  send : ∀ s', r.1.send = some s' → ∃ s, x.send = some s ∧ s'.offer = s.offer ∧ s'.sentIdx = s.sentIdx ∧
    (s'.state = .offering → s.state = .offering) ∧ (s'.state = .sending → s.state = .sending) ∧ r.1.file = x.file
  pump : r.1.pump = x.pump ∨ r.1.pump = none
  frames : ∀ f ∈ r.2.frames, f.plain = true

namespace Keeps

variable {x : Session μ} {r r' : Session μ × Out μ}

theorem refl (x : Session μ) : Keeps x (x, {}) :=
  ⟨fun s hs => ⟨s, hs, rfl, rfl, id, id, rfl⟩, .inl rfl, fun _ h => nomatch h⟩

theorem trans (h : Keeps x r) (h' : Keeps r.1 r') : Keeps x (r'.1, r.2 ++ r'.2) := by
  refine ⟨?_, ?_, ?_⟩
  · intro s'' hs''
    obtain ⟨s', hs', hoffer', hidx', hoff', hsend', hfile'⟩ := h'.send s'' hs''
    obtain ⟨s, hs, hoffer, hidx, hoff, hsend, hfile⟩ := h.send s' hs'
    exact ⟨s, hs, hoffer'.trans hoffer, hidx'.trans hidx, fun ho => hoff (hoff' ho), fun ho => hsend (hsend' ho),
      hfile'.trans hfile⟩
  · obtain hp | hp := h'.pump
    · exact h.pump.imp hp.trans hp.trans
    · exact .inr hp
  · intro f hf
    rcases List.mem_append.mp hf with hf | hf
    · exact h.frames f hf
    · exact h'.frames f hf

/-- Frames that are no chunks, whatever is told. -/
theorem and_out (h : Keeps x r) {o : Out μ} (ho : ∀ f ∈ o.frames, f.plain = true) : Keeps x (r.1, r.2 ++ o) :=
  have hout : Keeps r.1 (r.1, o) := { refl r.1 with frames := ho }
  h.trans hout

theorem clear (x : Session μ) {o : Out μ} (ho : ∀ f ∈ o.frames, f.plain = true) : Keeps x (x.clear, o) :=
  ⟨fun _ h => (nomatch h), .inl rfl, ho⟩

theorem trySend (x : Session μ) (link : Link) {f : Frame μ} (hf : f.plain = true) :
    Keeps x (x, Session.trySend link f) := by
  refine { refl x with frames := ?_ }
  intro g hg
  rw [Session.trySend] at hg
  dsimp only at hg
  split at hg
  · exact List.mem_singleton.mp hg ▸ hf
  · cases hg

theorem setRecv (x : Session μ) (v : Option (Receiver μ)) : Keeps x ({ x with recv := v }, {}) :=
  ⟨fun s hs => ⟨s, hs, rfl, rfl, id, id, rfl⟩, .inl rfl, fun _ h => nomatch h⟩

theorem setSend {s s' : Sender μ} (hs : x.send = some s) (hoffer : s'.offer = s.offer) (hidx : s'.sentIdx = s.sentIdx)
    (hoff : s'.state = .offering → s.state = .offering) (hsend : s'.state = .sending → s.state = .sending) :
    Keeps x ({ x with send := some s' }, {}) := by
  refine ⟨?_, .inl rfl, fun _ h => nomatch h⟩
  intro t ht
  cases ht
  exact ⟨s, hs, hoffer, hidx, hoff, hsend, rfl⟩

theorem setPump (x : Session μ) : Keeps x ({ x with pump := none }, {}) :=
  ⟨fun s hs => ⟨s, hs, rfl, rfl, id, id, rfl⟩, .inr rfl, fun _ h => nomatch h⟩

theorem emit (x : Session μ) (link : Link) (dir : Dir) {evs : List (Ev μ)}
    (h : ∀ f, .tell f ∈ evs → f.plain = true) : Keeps x (x.emit link evs dir) := by
  have hloop : ∀ (es : List (Ev μ)) (r : Session μ × Out μ), (∀ f, .tell f ∈ es → f.plain = true) → Keeps x r →
      Keeps x (es.foldl (Session.emitOne link dir) r) := by
    intro es
    induction es with
    | nil => exact fun r _ hr => hr
    | cons e es ih =>
        intro r hes hr
        apply ih _ fun f hf => hes f (List.mem_cons_of_mem _ hf)
        cases e with
        | tell f => exact hr.trans (.trySend _ link (hes f (List.mem_cons_self ..)))
        | progress _ _ | accepted => exact hr.and_out fun _ hf => nomatch hf
        | failed why => exact hr.trans (.clear _ (by simp))
        | done =>
            dsimp only [Session.emitOne]
            split
            · exact hr.trans (.clear _ (by simp))
            · exact hr
  exact hloop evs _ h (refl x)

/-- The channel is gone under the pump. -/
theorem lose (x : Session μ) (link : Link) :
    Keeps x (({ x with pump := none } : Session μ).emit link [.failed .channel] .out) := by
  have htell : ∀ f : Frame μ, Ev.tell f ∈ [Ev.failed Why.channel] → f.plain = true := by simp
  exact (setPump x).trans (emit _ link .out htell)

/-! ## The turns that move no file -/

theorem sender_tick (s : Sender μ) (now : Time) :
    (s.tick now).1.offer = s.offer ∧ (s.tick now).1.sentIdx = s.sentIdx ∧
    ((s.tick now).1.state = s.state ∨ (s.tick now).1.state = .failed) ∧
    ∀ f, .tell f ∈ (s.tick now).2 → f.plain = true := by
  rw [Sender.tick]
  split
  · refine ⟨rfl, rfl, .inr rfl, ?_⟩
    intro f hf
    simp only [Sender.fail, List.mem_cons, Ev.tell.injEq, reduceCtorEq, List.not_mem_nil, or_false] at hf
    subst hf
    rfl
  · split
    · exact ⟨rfl, rfl, .inr rfl, by simp [Sender.fail]⟩
    · exact ⟨rfl, rfl, .inl rfl, fun _ h => nomatch h⟩

/-- A frame moves no sender on, apart from an acceptance. -/
theorem sender_onFrame (s : Sender μ) (f : Frame μ) (now : Time) :
    (s.onFrame f now).1.offer = s.offer ∧ (s.onFrame f now).1.sentIdx = s.sentIdx ∧
    ((s.onFrame f now).1.state = .offering → s.state = .offering) ∧
    ((s.onFrame f now).1.state = .sending → s.state = .sending ∨
      (s.onFrame f now).2.any Ev.isAccepted = true ∧ s.state = .offering ∧ f = .accept s.offer.id) ∧
    ((s.onFrame f now).2.any Ev.isAccepted = true →
      s.state = .offering ∧ f = .accept s.offer.id ∧ (s.onFrame f now).2 = [.accepted] ∧
        (s.onFrame f now).1.state = .sending) ∧
    ∀ g, .tell g ∉ (s.onFrame f now).2 := by
  rw [Sender.onFrame]
  by_cases hid : f.id = s.offer.id
  · rw [if_pos hid]
    cases f with
    | accept id =>
        obtain rfl : id = s.offer.id := hid
        dsimp only
        split
        · rename_i hs
          simp [hs, Ev.isAccepted]
        · rename_i hs
          simp [hs]
    | reject id =>
        dsimp only
        split <;> simp_all [Sender.fail, Ev.isAccepted]
    | cancel id =>
        dsimp only
        split <;> simp_all [Sender.fail, Ev.isAccepted]
    | receipt id i =>
        dsimp only
        split <;> simp_all [Ev.isAccepted]
    | done id =>
        dsimp only
        split <;> simp_all [Ev.isAccepted]
    | offer o => simp
    | chunk id i body => simp
  · rw [if_neg hid]
    simp

theorem tickSend (x : Session μ) (link : Link) (now : Time) : Keeps x (x.tickSend link now) := by
  rw [Session.tickSend]
  cases hs : x.send with
  | none => exact refl x
  | some s =>
      obtain ⟨hoffer, hidx, hstate, htell⟩ := sender_tick s now
      have hset : Keeps x ({ x with send := some (s.tick now).1 }, {}) := by
        apply setSend hs hoffer hidx
        · intro h
          obtain he | he := hstate
          · exact he ▸ h
          · rw [he] at h
            cases h
        · intro h
          obtain he | he := hstate
          · exact he ▸ h
          · rw [he] at h
            cases h
      exact hset.trans (emit _ link .out htell)

theorem tickRecv (x : Session μ) (link : Link) (now : Time) : Keeps x (x.tickRecv link now) := by
  rw [Session.tickRecv]
  cases x.recv with
  | none => exact refl x
  | some v =>
      have htell : ∀ f, Ev.tell f ∉ (v.tick now).2 := by
        intro f
        rw [Receiver.tick]
        split <;> simp [Receiver.fail]
      exact (setRecv x (some (v.tick now).1)).trans (emit _ link .in_ fun f hf => absurd hf (htell f))

theorem tick (x : Session μ) (link : Link) (now : Time) : Keeps x (x.tick link now) :=
  (tickSend x link now).trans (tickRecv _ link now)

theorem accept (x : Session μ) (link : Link) (now : Time) : Keeps x (x.accept link now) := by
  rw [Session.accept]
  cases x.recv with
  | none => exact refl x
  | some v =>
      dsimp only
      split
      · split
        · exact clear x fun _ h => nomatch h
        · exact (setRecv x (some (v.accept now).1)).trans (trySend _ link rfl)
      · exact refl x

theorem reject (x : Session μ) (link : Link) : Keeps x (x.reject link) := by
  rw [Session.reject]
  cases x.recv with
  | none => exact refl x
  | some v => exact clear x (trySend x link (f := v.reject.2) rfl).frames

theorem cancel (x : Session μ) (link : Link) : Keeps x (x.cancel link) := by
  have hout : ∀ {f : Frame μ} (evs : List (XferEv μ)), f.plain = true →
      ∀ g ∈ (Session.trySend link f ++ (⟨[], evs⟩ : Out μ)).frames, g.plain = true := by
    intro f evs hf g hg
    rw [Out.append_frames, List.append_nil] at hg
    exact (trySend x link hf).frames g hg
  rw [Session.cancel]
  cases x.send with
  | some s => exact clear x (hout _ rfl)
  | none =>
      cases x.recv with
      | some v => exact clear x (hout _ rfl)
      | none => exact refl x

theorem onOffer (B : Bounds μ) (x : Session μ) (link : Link) (o : Offer μ) : Keeps x (x.onOffer B link o) := by
  have hrefuse : ∀ o why, Keeps x (x.refuse link o why) := fun o why =>
    (trySend x link (f := (createReceiver o).reject.2) rfl).and_out (by simp)
  rw [Session.onOffer]
  cases (if B.offerFits o then decodeOffer o else none) with
  | none => exact trySend x link rfl
  | some o =>
      dsimp only
      split
      · exact hrefuse o .busy
      · split
        · exact hrefuse o .tooBig
        · split
          · exact hrefuse o .empty
          · have hset := setRecv x (some (createReceiver o))
            exact ⟨hset.send, hset.pump, fun _ h => nomatch h⟩

theorem receiver_take (v : Receiver μ) (body : Bytes) :
    (∀ g, (v.take body).2.2 = some g → g.plain = true) ∧ ∀ g, .tell g ∉ (v.take body).2.1 := by
  rw [Receiver.take]
  dsimp only
  split
  · simp [Frame.plain]
  · split <;> simp [Frame.plain]

/-- The receiver answers with no chunk and no offer. -/
theorem receiver_onFrame (v : Receiver μ) (f : Frame μ) (now : Time) :
    (∀ g, (v.onFrame f now).2.2 = some g → g.plain = true) ∧ ∀ g, .tell g ∉ (v.onFrame f now).2.1 := by
  rw [Receiver.onFrame]
  split
  · cases f with
    | cancel id =>
        dsimp only
        split <;> simp [Receiver.fail]
    | chunk id i body =>
        dsimp only
        split
        · split
          · split
            · exact receiver_take _ body
            · simp [Receiver.fail]
          · simp [Receiver.fail]
        · simp
    | _ => simp
  · simp

/-- A frame for the sender that is no acceptance of a standing offer. -/
theorem toSender {x : Session μ} (link : Link) {s : Sender μ} (hs : x.send = some s) (f : Frame μ) (now : Time)
    (h : (s.onFrame f now).2.any Ev.isAccepted = false) :
    Keeps x (({ x with send := some (s.onFrame f now).1 }).emit link (s.onFrame f now).2 .out) := by
  obtain ⟨hoffer, hidx, hoff, hsend, -, htell⟩ := sender_onFrame s f now
  have hset : Keeps x ({ x with send := some (s.onFrame f now).1 }, {}) := by
    apply setSend hs hoffer hidx hoff
    intro hsending
    obtain hsame | ⟨hacc, -⟩ := hsend hsending
    · exact hsame
    · rw [h] at hacc
      cases hacc
  exact hset.trans (emit _ link .out fun g hg => absurd hg (htell g))

theorem finish (x : Session μ) (finished : Bool) : Keeps x (x.finish finished) := by
  rw [Session.finish]
  cases x.recv with
  | none => exact refl x
  | some v =>
      dsimp only
      split
      · exact clear x fun _ h => nomatch h
      · exact refl x

theorem answer (x : Session μ) (link : Link) (reply : Option (Frame μ)) :
    (∀ g, reply = some g → g.plain = true) → Keeps x (x, match reply with
      | some g => Session.trySend link g
      | none => {}) := by
  intro h
  cases reply with
  | none => exact refl x
  | some g => exact trySend x link (h g rfl)

theorem toReceiver (x : Session μ) (link : Link) (v : Receiver μ) (f : Frame μ) (now : Time) :
    Keeps x (x.toReceiver link v f now) := by
  obtain ⟨hreply, htell⟩ := receiver_onFrame v f now
  have hanswer := answer x link _ hreply
  have hset := hanswer.trans (setRecv x (some (v.onFrame f now).1))
  have hplain : ∀ g, .tell g ∈ (v.onFrame f now).2.1.filter (fun e => !e.isDone) → g.plain = true :=
    fun g hg => absurd (List.mem_filter.mp hg).1 (htell g)
  have hemit := hset.trans (emit _ link .in_ hplain)
  have hfinish := hemit.trans (finish _ ((v.onFrame f now).2.1.any Ev.isDone))
  rw [Out.append_empty] at hfinish
  exact hfinish

theorem onFrame_eq (B : Bounds μ) (x : Session μ) (link : Link) {f : Frame μ} (now : Time) (hf : ∀ o, f ≠ .offer o) :
    x.onFrame B link f now = match x.send, x.recv with
      | some s, _ => x.toSender link s f now
      | none, some v => x.toReceiver link v f now
      | none, none => (x, {}) := by
  cases f with
  | offer o => exact absurd rfl (hf o)
  | _ => rfl

/-- A frame that is no acceptance of a standing offer. -/
theorem onFrame (B : Bounds μ) {x : Session μ} (link : Link) (f : Frame μ) (now : Time)
    (h : ∀ s, x.send = some s → (s.onFrame f now).2.any Ev.isAccepted = false) :
    Keeps x (x.onFrame B link f now) := by
  by_cases hf : ∃ o, f = .offer o
  · obtain ⟨o, rfl⟩ := hf
    exact onOffer B x link o
  rw [onFrame_eq B x link now fun o he => hf ⟨o, he⟩]
  cases hs : x.send with
  | some s =>
      have hnone := h s hs
      dsimp only
      rw [Session.toSender]
      simp only [hnone, Bool.false_eq_true, if_false]
      exact toSender link hs f now hnone
  | none =>
      cases x.recv with
      | some v => exact toReceiver x link v f now
      | none => exact refl x

end Keeps

/-- What a turn that moves no file leaves is still what has been sent. -/
theorem Sends.keep {offered : List (Nat × Bytes)} {x : Session μ} {wire : List (Frame μ)} {r : Session μ × Out μ}
    (H : Sends offered x wire) (h : Keeps x r) : Sends offered r.1 (wire ++ r.2.frames) := by
  have hnone : ∀ id, chunksUnder id r.2.frames = [] := by
    intro id
    apply chunksUnder_nil_of
    intro i body hmem
    cases h.frames _ hmem
  have hunder : ∀ id, chunksUnder id (wire ++ r.2.frames) = chunksUnder id wire := by
    intro id
    rw [chunksUnder_append, hnone, List.append_nil]
  refine ⟨H.ids, ?_, ?_, ?_, ?_⟩
  · intro s' hs'
    obtain ⟨s, hs, hoffer, hidx, hoff, hsend, hfile⟩ := h.send s' hs'
    obtain ⟨file, hf, P⟩ := H.placed s hs
    refine ⟨file, hfile.trans hf, ⟨hoffer ▸ P.offered, hoffer ▸ P.size, hoffer ▸ P.chunks, hoffer ▸ P.chunk, ?_, ?_,
      fun ho => hidx.trans (P.fresh (hoff ho)), ?_⟩⟩
    · rw [hoffer, hidx]
      exact P.few
    · rw [hunder, hoffer, hidx]
      exact P.sent
    · intro hsending
      obtain hp | hp := h.pump
      · rw [hp]
        have hfits := P.fits (hsend hsending)
        cases hpump : x.pump with
        | none => trivial
        | some point =>
            rw [hpump] at hfits
            cases point with
            | drain i => exact ⟨hfits.1.trans hidx.symm, hoffer ▸ hfits.2⟩
            | slice i body => exact ⟨hfits.1.trans hidx.symm, hoffer ▸ hfits.2.1, hfits.2.2⟩
      · rw [hp]
        trivial
  · intro a ha
    rw [hunder]
    exact H.all a ha
  · intro id i body hmem
    rcases List.mem_append.mp hmem with hmem | hmem
    · exact H.only id i body hmem
    · cases h.frames _ hmem
  · intro o hmem
    rcases List.mem_append.mp hmem with hmem | hmem
    · exact H.offers o hmem
    · cases h.frames _ hmem

/-! ## The turns that move one -/

namespace Sends

variable {offered : List (Nat × Bytes)} {x : Session μ} {wire : List (Frame μ)}

theorem start : Sends [] (Session.start : Session μ) [] :=
  ⟨(fun _ h => nomatch h), (fun _ h => nomatch h), (fun _ h => nomatch h), (fun _ _ _ h => nomatch h),
    fun _ h => nomatch h⟩

/-- A chunk on the channel is one of the file offered under its id. -/
theorem chunk_eq (H : Sends offered x wire) {id i : Nat} {body file : Bytes} (h : .chunk id i body ∈ wire)
    (hfile : (id, file) ∈ offered) : body = Session.chunkOf file i := by
  obtain ⟨n, -, hn⟩ := H.all _ hfile
  have hmem := mem_chunksUnder h
  rw [hn, firstChunks, List.mem_map] at hmem
  obtain ⟨j, -, hj⟩ := hmem
  cases hj
  rfl

/-- The pump waits for something else. -/
theorem repump (H : Sends offered x wire) {p : Option Pump}
    (h : ∀ s file, x.send = some s → x.file = some file → s.state = .sending → Fits file s x.pump → Fits file s p) :
    Sends offered { x with pump := p } wire := by
  refine { H with placed := ?_ }
  intro s hs
  obtain ⟨file, hf, P⟩ := H.placed s hs
  exact ⟨file, hf, { P with fits := fun hsending => h s file hs hf hsending (P.fits hsending) }⟩

theorem pumpLoop_cases (x : Session μ) (link : Link) :
    Keeps x (x.pumpLoop link) ∨ ∃ s, x.send = some s ∧ s.sentIdx < s.offer.chunks ∧
      x.pumpLoop link = ({ x with pump := some (.drain s.sentIdx) }, {}) := by
  obtain ⟨send, recv, file, pump⟩ := x
  rw [Session.pumpLoop]
  cases send with
  | none => exact .inl (.setPump _)
  | some s =>
      dsimp only
      cases hn : s.next with
      | none => exact .inl (.setPump _)
      | some i =>
          dsimp only
          split
          · exact .inl (.setPump _)
          · split
            · exact .inl (Keeps.lose ⟨some s, recv, file, pump⟩ link)
            · rw [Sender.next] at hn
              split at hn
              · rename_i hsending
                cases hn
                exact .inr ⟨s, rfl, hsending.2, rfl⟩
              · cases hn

/-- The pump runs on from where the sender is. -/
theorem pumpLoop (H : Sends offered x wire) (link : Link) :
    Sends offered (x.pumpLoop link).1 (wire ++ (x.pumpLoop link).2.frames) := by
  obtain hkeeps | ⟨s, hs, hlt, he⟩ := pumpLoop_cases x link
  · exact H.keep hkeeps
  · rw [he, List.append_nil]
    apply H.repump
    intro t file ht _ _ _
    cases hs.symm.trans ht
    exact ⟨rfl, hlt⟩

theorem startPump (H : Sends offered x wire) (link : Link) :
    Sends offered (x.startPump link).1 (wire ++ (x.startPump link).2.frames) := by
  rw [Session.startPump]
  cases x.pump with
  | none => exact H.pumpLoop link
  | some p => exact H.keep (.refl x)

theorem chunksOf_pos (n : Nat) : 0 < chunksOf n := Nat.lt_of_lt_of_le Nat.zero_lt_one (Nat.le_max_left ..)

/-- An acceptance starts the pump, if none is waiting. -/
theorem accepted (H : Sends offered x wire) (link : Link) {s : Sender μ} (hs : x.send = some s) {f : Frame μ}
    {now : Time} (hacc : (s.onFrame f now).2.any Ev.isAccepted = true)
    (hpump : ∀ file, x.file = some file → FitsStart file x.pump) :
    Sends offered (x.toSender link s f now).1 (wire ++ (x.toSender link s f now).2.frames) := by
  obtain ⟨hoffer, hidx, -, -, haccept, -⟩ := Keeps.sender_onFrame s f now
  obtain ⟨hoff, -, hevs, -⟩ := haccept hacc
  have hset : Sends offered { x with send := some (s.onFrame f now).1 } wire := by
    refine { H with placed := ?_ }
    intro t ht
    cases ht
    obtain ⟨file, hf, P⟩ := H.placed s hs
    refine ⟨file, hf, ⟨hoffer ▸ P.offered, hoffer ▸ P.size, hoffer ▸ P.chunks, hoffer ▸ P.chunk, ?_, ?_,
      fun _ => hidx.trans (P.fresh hoff), ?_⟩⟩
    · rw [hoffer, hidx]
      exact P.few
    · rw [hoffer, hidx]
      exact P.sent
    · intro _
      have hzero : (s.onFrame f now).1.sentIdx = 0 := hidx.trans (P.fresh hoff)
      have hpos : 0 < (s.onFrame f now).1.offer.chunks := by
        rw [hoffer, P.chunks]
        exact chunksOf_pos _
      have hstart := hpump file hf
      cases hp : x.pump with
      | none => trivial
      | some point =>
          rw [hp] at hstart
          cases point with
          | drain i => exact ⟨hstart.trans hzero.symm, hstart ▸ hpos⟩
          | slice i body =>
              obtain ⟨rfl, hbody⟩ := hstart
              exact ⟨hzero.symm, hpos, hbody⟩
  have hrun := hset.startPump link
  rw [Session.toSender]
  simp only [hevs]
  exact hrun

/-- The next chunk is sent. -/
theorem sendChunk (H : Sends offered x wire) {s : Sender μ} {file : Bytes} (hs : x.send = some s)
    (hf : x.file = some file) (hsending : s.state = .sending) {i : Nat} {body : Bytes}
    (hfits : Fits file s (some (.slice i body))) :
    Sends offered { x with send := some (s.chunk i body).1, pump := none } (wire ++ [.chunk s.offer.id i body]) := by
  obtain ⟨rfl, hlt, rfl⟩ := hfits
  obtain ⟨file', hf', P⟩ := H.placed s hs
  cases hf.symm.trans hf'
  have hunder : ∀ id, chunksUnder id [Frame.chunk (μ := μ) s.offer.id s.sentIdx (Session.chunkOf file s.sentIdx)] =
      if s.offer.id = id then [(s.sentIdx, Session.chunkOf file s.sentIdx)] else [] := by
    intro id
    by_cases hid : s.offer.id = id <;> simp [chunksUnder, hid]
  have hsent : chunksUnder s.offer.id (wire ++ [.chunk s.offer.id s.sentIdx (Session.chunkOf file s.sentIdx)]) =
      firstChunks file (s.sentIdx + 1) := by
    rw [chunksUnder_append, hunder, if_pos rfl, P.sent, firstChunks_succ]
  refine ⟨H.ids, ?_, ?_, ?_, ?_⟩
  · intro t ht
    cases ht
    refine ⟨file, hf, ⟨P.offered, P.size, P.chunks, P.chunk, hlt, hsent, ?_, fun _ => trivial⟩⟩
    intro hoff
    cases hsending.symm.trans hoff
  · intro a ha
    by_cases hid : a.1 = s.offer.id
    · obtain rfl := H.ids a ha _ P.offered hid
      exact ⟨s.sentIdx + 1, P.chunks ▸ hlt, hsent⟩
    · rw [chunksUnder_append, hunder, if_neg (Ne.symm hid), List.append_nil]
      exact H.all a ha
  · intro id i body hmem
    rcases List.mem_append.mp hmem with hmem | hmem
    · exact H.only id i body hmem
    · cases List.mem_singleton.mp hmem
      exact ⟨file, P.offered⟩
  · intro o hmem
    rcases List.mem_append.mp hmem with hmem | hmem
    · exact H.offers o hmem
    · cases List.mem_singleton.mp hmem

theorem drained (H : Sends offered x wire) {i : Nat} (hp : x.pump = some (.drain i)) :
    Sends offered (x.drained i).1 (wire ++ (x.drained i).2.frames) := by
  have hstop : Sends offered { x with pump := none } (wire ++ []) := H.keep (.setPump x)
  obtain ⟨send, recv, file, pump⟩ := x
  rw [Session.drained]
  cases send with
  | none => exact hstop
  | some s =>
      obtain ⟨f, hf, P⟩ := H.placed s rfl
      obtain rfl : file = some f := hf
      dsimp only
      split
      · rename_i hsending
        obtain rfl : pump = some (.drain i) := hp
        have hfits := P.fits hsending
        rw [List.append_nil]
        apply H.repump
        intro t file' ht hf' _ _
        cases ht
        cases hf'
        exact ⟨hfits.1, hfits.2, rfl⟩
      · exact hstop

theorem sliced (H : Sends offered x wire) (link : Link) {i : Nat} {body : Bytes} (hp : x.pump = some (.slice i body)) :
    Sends offered (x.sliced link i body).1 (wire ++ (x.sliced link i body).2.frames) := by
  have hstop : Sends offered { x with pump := none } (wire ++ []) := H.keep (.setPump x)
  rw [Session.sliced]
  obtain ⟨send, recv, file, pump⟩ := x
  cases send with
  | none => exact hstop
  | some s =>
      obtain ⟨f, hf, P⟩ := H.placed s rfl
      dsimp only
      split
      · rename_i hsending
        obtain rfl : pump = some (.slice i body) := hp
        have hfits := P.fits hsending
        split
        · have hsent := (H.sendChunk rfl hf hsending hfits).pumpLoop link
          rw [List.append_assoc] at hsent
          exact hsent
        · -- `sentIdx` has moved, but the sender is dropped
          apply H.keep
          exact ⟨(fun _ h => nomatch h), .inr rfl, fun _ h => nomatch h⟩
      · exact hstop

theorem resume (H : Sends offered x wire) (link : Link) :
    Sends offered (x.resume link).1 (wire ++ (x.resume link).2.frames) := by
  rw [Session.resume]
  cases hp : x.pump with
  | none => exact H.keep (.refl x)
  | some point =>
      cases point with
      | drain i => exact H.drained hp
      | slice i body => exact H.sliced link hp

/-- A new offer: nothing has gone out under its id. -/
theorem offer (H : Sends offered x wire) (B : Bounds μ) (file : Bytes) (card : μ) {id : Nat} (link : Link) (now : Time)
    (hnew : ∀ a ∈ offered, a.1 ≠ id) :
    Sends (offered ++ if (x.offer B file card id link now).1 = .ok then [(id, file)] else [])
      (x.offer B file card id link now).2.1 (wire ++ (x.offer B file card id link now).2.2.frames) := by
  have hsame : Sends (offered ++ []) x (wire ++ []) := by rwa [List.append_nil, List.append_nil]
  rw [Session.offer]
  split
  · exact hsame
  split
  · exact hsame
  split
  · exact hsame
  split
  · exact hsame
  split
  · exact hsame
  dsimp only
  split
  · exact hsame
  dsimp only
  rw [if_pos rfl]
  have hnone : ∀ id' : Nat, chunksUnder id' (Session.trySend link
      ((createSender file.length card id).open_ now).2).frames = [] := by
    intro id'
    apply chunksUnder_nil_of
    intro i body hmem
    rw [Session.trySend] at hmem
    dsimp only at hmem
    split at hmem
    · cases List.mem_singleton.mp hmem
    · cases hmem
  have hfresh : chunksUnder id wire = [] := by
    apply chunksUnder_nil_of
    intro i body hmem
    obtain ⟨file', hfile'⟩ := H.only id i body hmem
    exact hnew _ hfile' rfl
  have hunder : ∀ id', chunksUnder id' (wire ++ (Session.trySend link
      ((createSender file.length card id).open_ now).2).frames) = chunksUnder id' wire := by
    intro id'
    rw [chunksUnder_append, hnone, List.append_nil]
  refine ⟨?_, ?_, ?_, ?_, ?_⟩
  · intro a ha b hb hab
    rcases List.mem_append.mp ha with ha | ha <;> rcases List.mem_append.mp hb with hb | hb
    · exact H.ids a ha b hb hab
    · cases List.mem_singleton.mp hb
      exact absurd hab (hnew a ha)
    · cases List.mem_singleton.mp ha
      exact absurd hab.symm (hnew b hb)
    · exact (List.mem_singleton.mp ha).trans (List.mem_singleton.mp hb).symm
  · intro s hs
    cases hs
    refine ⟨file, rfl, ⟨by simp [createSender, Sender.open_], rfl, rfl, rfl, Nat.zero_le _, ?_, fun _ => rfl, ?_⟩⟩
    · rw [hunder]
      exact hfresh
    · intro h
      cases h
  · intro a ha
    rw [hunder]
    rcases List.mem_append.mp ha with ha | ha
    · exact H.all a ha
    · cases List.mem_singleton.mp ha
      exact ⟨0, Nat.zero_le _, hfresh⟩
  · intro id' i body hmem
    rcases List.mem_append.mp hmem with hmem | hmem
    · obtain ⟨file', hfile'⟩ := H.only id' i body hmem
      exact ⟨file', List.mem_append_left _ hfile'⟩
    · have hin := mem_chunksUnder hmem
      rw [hnone] at hin
      cases hin
  · intro o hmem
    rcases List.mem_append.mp hmem with hmem | hmem
    · obtain ⟨file', hfile', hsize⟩ := H.offers o hmem
      exact ⟨file', List.mem_append_left _ hfile', hsize⟩
    · rw [Session.trySend] at hmem
      dsimp only at hmem
      split at hmem
      · cases List.mem_singleton.mp hmem
        exact ⟨file, by simp [createSender], rfl⟩
      · cases hmem

end Sends

end EncedoChat.Xfer
