import EncedoChat.Xfer.Session

/-!
# What a session has received

What a receiver keeps is the beginning of the file of its offer, whatever order the frames come in: only the chunk
that is wanted is kept, and only at its length.
-/

namespace EncedoChat.Xfer

variable {μ : Type}

/-- The parts kept are the beginning of the file offered. -/
structure Held (offered : List (Nat × Bytes)) (v : Receiver μ) (file : Bytes) : Prop where
  offered : (v.offer.id, file) ∈ offered
  size : v.offer.size = file.length
  chunks : v.offer.chunks = chunksOf file.length
  got : v.got = min (v.want * CHUNK) file.length
  parts : v.parts.flatten = file.take v.got

theorem le_chunksOf (n : Nat) : n ≤ chunksOf n * CHUNK := by
  have hdiv : n ≤ (n + (CHUNK - 1)) / CHUNK * CHUNK := by
    unfold CHUNK
    omega
  exact Nat.le_trans hdiv (Nat.mul_le_mul_right _ (Nat.le_max_right ..))

theorem chunkOf_eq (file : Bytes) (i : Nat) : Session.chunkOf file i = (file.drop (i * CHUNK)).take CHUNK := by
  rw [Session.chunkOf, Bytes.slice, List.take_eq_take_iff, List.length_drop]
  omega

theorem length_chunkOf (file : Bytes) (i : Nat) :
    (Session.chunkOf file i).length = min CHUNK (file.length - i * CHUNK) := by
  rw [chunkOf_eq, List.length_take, List.length_drop]

/-- One chunk more of the beginning. -/
theorem take_append_chunkOf (file : Bytes) (i : Nat) :
    file.take (min (i * CHUNK) file.length) ++ Session.chunkOf file i = file.take (min ((i + 1) * CHUNK) file.length) := by
  have htake : ∀ n, file.take (min n file.length) = file.take n := by
    intro n
    rw [List.take_eq_take_iff]
    omega
  rw [htake, htake, chunkOf_eq, Nat.add_mul, Nat.one_mul, List.take_add]

namespace Held

variable {offered : List (Nat × Bytes)} {v : Receiver μ} {file : Bytes}

theorem create {o : Offer μ} (ho : (o.id, file) ∈ offered) (hsize : o.size = file.length)
    (hchunks : o.chunks = chunksOf file.length) : Held offered (createReceiver o) file :=
  ⟨ho, hsize, hchunks, by simp [createReceiver], by simp [createReceiver]⟩

/-- The chunk that is wanted is taken. -/
theorem take (h : Held offered v file) {body : Bytes} (hbody : body = Session.chunkOf file v.want) :
    Held offered (v.take body).1 file ∧
      ((v.take body).2.1.any Ev.isDone = true → (v.take body).1.parts.flatten = file) := by
  have hgot : v.got + body.length = min ((v.want + 1) * CHUNK) file.length := by
    rw [h.got, hbody, length_chunkOf, Nat.add_mul, Nat.one_mul]
    omega
  have hparts : (v.parts ++ [body]).flatten = file.take (v.got + body.length) := by
    rw [List.flatten_append, List.flatten_singleton, h.parts, h.got, hbody, take_append_chunkOf, ← hbody, ← h.got, hgot]
  have hheld : ∀ state, Held offered { v with
      state := state, parts := v.parts ++ [body], got := v.got + body.length, want := v.want + 1 } file :=
    fun _ => ⟨h.offered, h.size, h.chunks, hgot, hparts⟩
  rw [Receiver.take]
  dsimp only
  split
  · rename_i hwant
    refine ⟨hheld _, fun _ => ?_⟩
    -- the last chunk is in, so all of the file is
    have hall : file.length ≤ (v.want + 1) * CHUNK := by
      rw [h.chunks] at hwant
      exact Nat.le_trans (le_chunksOf _) (Nat.mul_le_mul_right _ hwant)
    rw [hparts, hgot, Nat.min_eq_right hall, List.take_length]
  · split
    · exact ⟨hheld _, by simp [Ev.isDone]⟩
    · exact ⟨hheld _, by simp [Ev.isDone]⟩

/-- A frame keeps the parts the beginning of the file, if the chunks under its id are the file's. -/
theorem onFrame (h : Held offered v file) (f : Frame μ) (now : Time)
    (hchunk : ∀ i body, f = .chunk v.offer.id i body → body = Session.chunkOf file i) :
    Held offered (v.onFrame f now).1 file ∧
      ((v.onFrame f now).2.1.any Ev.isDone = true → (v.onFrame f now).1.parts.flatten = file) := by
  have hlast : Held offered { v with last := now } file := ⟨h.offered, h.size, h.chunks, h.got, h.parts⟩
  have hfail : ∀ why, Held offered (({ v with last := now } : Receiver μ).fail why).1 file :=
    fun _ => ⟨h.offered, h.size, h.chunks, h.got, h.parts⟩
  rw [Receiver.onFrame]
  split
  · rename_i hid
    cases f with
    | cancel id =>
        dsimp only
        split
        · exact ⟨hlast, by simp⟩
        · exact ⟨hfail .cancelledPeer, by simp [Receiver.fail, Ev.isDone]⟩
    | chunk id i body =>
        obtain rfl : id = v.offer.id := hid
        dsimp only
        split
        · split
          · rename_i hi
            split
            · exact hlast.take (hi ▸ hchunk i body rfl)
            · exact ⟨hfail .badFrame, by simp [Receiver.fail, Ev.isDone]⟩
          · exact ⟨hfail .outOfOrder, by simp [Receiver.fail, Ev.isDone]⟩
        · exact ⟨hlast, by simp⟩
    | _ => exact ⟨hlast, by simp⟩
  · exact ⟨h, by simp⟩

end Held

/-- The receiver of a session, and what it has handed over. -/
structure Receives (offered : List (Nat × Bytes)) (x : Session μ) (evs : List (XferEv μ)) : Prop where
  held : ∀ v, x.recv = some v → ∃ file, Held offered v file
  handed : ∀ id card blob, .received id card blob ∈ evs → (id, blob) ∈ offered

/-- A turn that takes no chunk: the receiver is dropped or keeps what it has, and nothing is handed over. -/
structure Waits (x : Session μ) (r : Session μ × Out μ) : Prop where
  recv : ∀ v', r.1.recv = some v' → ∃ v, x.recv = some v ∧ v'.offer = v.offer ∧ v'.want = v.want ∧ v'.got = v.got ∧
    v'.parts = v.parts
  evs : ∀ id card blob, .received id card blob ∉ r.2.evs

namespace Waits

variable {x : Session μ} {r r' : Session μ × Out μ}

theorem of_recv (hrecv : r.1.recv = x.recv) (hevs : ∀ id card blob, .received id card blob ∉ r.2.evs) : Waits x r :=
  ⟨fun v hv => ⟨v, hrecv ▸ hv, rfl, rfl, rfl, rfl⟩, hevs⟩

theorem of_none (hrecv : r.1.recv = none) (hevs : ∀ id card blob, .received id card blob ∉ r.2.evs) : Waits x r :=
  ⟨(fun v hv => by rw [hrecv] at hv; cases hv), hevs⟩

theorem refl (x : Session μ) : Waits x (x, {}) := .of_recv rfl fun _ _ _ h => nomatch h

theorem trans (h : Waits x r) (h' : Waits r.1 r') : Waits x (r'.1, r.2 ++ r'.2) := by
  refine ⟨?_, ?_⟩
  · intro v'' hv''
    obtain ⟨v', hv', ho', hw', hg', hp'⟩ := h'.recv v'' hv''
    obtain ⟨v, hv, ho, hw, hg, hp⟩ := h.recv v' hv'
    exact ⟨v, hv, ho'.trans ho, hw'.trans hw, hg'.trans hg, hp'.trans hp⟩
  · intro id card blob hmem
    rcases List.mem_append.mp hmem with hmem | hmem
    · exact h.evs id card blob hmem
    · exact h'.evs id card blob hmem

theorem setRecv {v v' : Receiver μ} (hv : x.recv = some v) (ho : v'.offer = v.offer) (hw : v'.want = v.want)
    (hg : v'.got = v.got) (hp : v'.parts = v.parts) : Waits x ({ x with recv := some v' }, {}) := by
  refine ⟨?_, fun _ _ _ h => nomatch h⟩
  intro w hw'
  cases hw'
  exact ⟨v, hv, ho, hw, hg, hp⟩

theorem emit (x : Session μ) (link : Link) (evs : List (Ev μ)) (dir : Dir) : Waits x (x.emit link evs dir) := by
  have hloop : ∀ (es : List (Ev μ)) (r : Session μ × Out μ), Waits x r →
      Waits x (es.foldl (Session.emitOne link dir) r) := by
    intro es
    induction es with
    | nil => exact fun r hr => hr
    | cons e es ih =>
        intro r hr
        apply ih
        cases e with
        | tell f =>
            have htell : Waits r.1 (r.1, Session.trySend link f) := .of_recv rfl fun _ _ _ h => nomatch h
            exact hr.trans htell
        | progress done total =>
            have hout : Waits r.1 (r.1, (⟨[], [.progress dir done total]⟩ : Out μ)) := .of_recv rfl (by simp)
            exact hr.trans hout
        | accepted =>
            have hout : Waits r.1 (r.1, (⟨[], [.accepted]⟩ : Out μ)) := .of_recv rfl (by simp)
            exact hr.trans hout
        | failed why =>
            have hout : Waits r.1 (r.1.clear, (⟨[], [.failed dir why]⟩ : Out μ)) := .of_none rfl (by simp)
            exact hr.trans hout
        | done =>
            dsimp only [Session.emitOne]
            split
            · have hout : Waits r.1 (r.1.clear,
                  (⟨[], [.done ((r.1.send.map (fun s => s.offer.id)).getD 0)]⟩ : Out μ)) := .of_none rfl (by simp)
              exact hr.trans hout
            · exact hr
  exact hloop evs _ (refl x)

/-- The sender moves, and the pump; the receiver stays. -/
theorem sendSide (x : Session μ) (s : Option (Sender μ)) (file : Option Bytes) (p : Option Pump) (link : Link)
    (evs : List (Ev μ)) (dir : Dir) : Waits x (({ x with send := s, file := file, pump := p } : Session μ).emit link evs dir) := by
  have hset : Waits x (({ x with send := s, file := file, pump := p } : Session μ), {}) :=
    .of_recv rfl fun _ _ _ h => nomatch h
  exact hset.trans (emit _ link evs dir)

theorem tick (x : Session μ) (link : Link) (now : Time) : Waits x (x.tick link now) := by
  have hsend : Waits x (x.tickSend link now) := by
    rw [Session.tickSend]
    cases x.send with
    | none => exact refl x
    | some s => exact sendSide x (some (s.tick now).1) x.file x.pump link _ .out
  have hrecv : ∀ y : Session μ, Waits y (y.tickRecv link now) := by
    intro y
    rw [Session.tickRecv]
    cases hv : y.recv with
    | none => exact refl y
    | some v =>
        have hset : Waits y ({ y with recv := some (v.tick now).1 }, {}) := by
          rw [Receiver.tick]
          split <;> exact setRecv hv rfl rfl rfl rfl
        exact hset.trans (emit _ link _ .in_)
  exact hsend.trans (hrecv _)

theorem accept (x : Session μ) (link : Link) (now : Time) : Waits x (x.accept link now) := by
  rw [Session.accept]
  cases hv : x.recv with
  | none => exact refl x
  | some v =>
      dsimp only
      split
      · split
        · exact .of_none rfl (by simp)
        · have hset : Waits x ({ x with recv := some (v.accept now).1 }, {}) := setRecv hv rfl rfl rfl rfl
          exact ⟨hset.recv, fun _ _ _ h => nomatch h⟩
      · exact refl x

theorem reject (x : Session μ) (link : Link) : Waits x (x.reject link) := by
  rw [Session.reject]
  cases x.recv with
  | none => exact refl x
  | some v => exact .of_none rfl fun _ _ _ h => nomatch h

theorem cancel (x : Session μ) (link : Link) : Waits x (x.cancel link) := by
  rw [Session.cancel]
  cases x.send with
  | some s => exact .of_none rfl (by simp [Session.trySend])
  | none =>
      cases x.recv with
      | some v => exact .of_none rfl (by simp [Session.trySend])
      | none => exact refl x

theorem pumpLoop (x : Session μ) (link : Link) : Waits x (x.pumpLoop link) := by
  have hpump : ∀ p, Waits x ({ x with pump := p }, {}) := fun _ => .of_recv rfl fun _ _ _ h => nomatch h
  obtain ⟨send, recv, file, pump⟩ := x
  rw [Session.pumpLoop]
  cases send with
  | none => exact hpump none
  | some s =>
      dsimp only
      cases s.next with
      | none => exact hpump none
      | some i =>
          dsimp only
          split
          · exact hpump none
          · split
            · exact sendSide ⟨some s, recv, file, pump⟩ (some s) file none link _ .out
            · exact hpump (some (.drain i))

theorem resume (x : Session μ) (link : Link) : Waits x (x.resume link) := by
  have hpump : ∀ p, Waits x ({ x with pump := p }, {}) := fun _ => .of_recv rfl fun _ _ _ h => nomatch h
  rw [Session.resume]
  cases x.pump with
  | none => exact refl x
  | some point =>
      cases point with
      | drain i =>
          dsimp only
          rw [Session.drained]
          split
          · split
            · exact hpump _
            · exact hpump none
          · exact hpump none
      | slice i body =>
          dsimp only
          rw [Session.sliced]
          split
          · rename_i s _
            split
            · dsimp only
              split
              · have hsent : Waits x (({ x with send := some (s.chunk i body).1 } : Session μ),
                    (⟨[(s.chunk i body).2], []⟩ : Out μ)) := .of_recv rfl fun _ _ _ h => nomatch h
                exact hsent.trans (pumpLoop _ link)
              · exact sendSide x (some (s.chunk i body).1) x.file none link _ .out
            · exact hpump none
          · exact hpump none

theorem offer (B : Bounds μ) (x : Session μ) (file : Bytes) (card : μ) (id : Nat) (link : Link) (now : Time) :
    Waits x (x.offer B file card id link now).2 := by
  rw [Session.offer]
  split
  · exact refl x
  split
  · exact refl x
  split
  · exact refl x
  split
  · exact refl x
  split
  · exact refl x
  dsimp only
  split
  · exact refl x
  · exact .of_recv rfl fun _ _ _ h => nomatch h

theorem toSender (x : Session μ) (link : Link) (s : Sender μ) (f : Frame μ) (now : Time) :
    Waits x (x.toSender link s f now) := by
  have hemit := sendSide x (some (s.onFrame f now).1) x.file x.pump link (s.onFrame f now).2 .out
  rw [Session.toSender]
  dsimp only
  split
  · apply hemit.trans
    rw [Session.startPump]
    split
    · exact refl _
    · exact pumpLoop _ link
  · exact hemit

end Waits

namespace Receives

variable {offered : List (Nat × Bytes)} {x : Session μ} {evs : List (XferEv μ)} {r : Session μ × Out μ}

theorem start : Receives [] (Session.start : Session μ) [] :=
  ⟨(fun _ h => nomatch h), fun _ _ _ h => nomatch h⟩

theorem wait (H : Receives offered x evs) (h : Waits x r) : Receives offered r.1 (evs ++ r.2.evs) := by
  refine ⟨?_, ?_⟩
  · intro v' hv'
    obtain ⟨v, hv, ho, hw, hg, hp⟩ := h.recv v' hv'
    obtain ⟨file, F⟩ := H.held v hv
    exact ⟨file, ⟨ho ▸ F.offered, ho ▸ F.size, ho ▸ F.chunks, hg.trans (hw ▸ F.got), by rw [hp, hg]; exact F.parts⟩⟩
  · intro id card blob hmem
    rcases List.mem_append.mp hmem with hmem | hmem
    · exact H.handed id card blob hmem
    · exact absurd hmem (h.evs id card blob)

/-- The other side has offered more. -/
theorem mono {more : List (Nat × Bytes)} (H : Receives offered x evs) : Receives (offered ++ more) x evs := by
  refine ⟨?_, fun id card blob h => List.mem_append_left _ (H.handed id card blob h)⟩
  intro v hv
  obtain ⟨file, F⟩ := H.held v hv
  exact ⟨file, { F with offered := List.mem_append_left _ F.offered }⟩

theorem onOffer (H : Receives offered x evs) (B : Bounds μ) (link : Link) {o : Offer μ} {file : Bytes}
    (ho : (o.id, file) ∈ offered) (hsize : o.size = file.length) :
    Receives offered (x.onOffer B link o).1 (evs ++ (x.onOffer B link o).2.evs) := by
  have hrefuse : ∀ o why, Receives offered (x.refuse link o why).1 (evs ++ (x.refuse link o why).2.evs) := by
    intro o why
    exact H.wait (.of_recv rfl (by simp [Session.refuse, Session.trySend]))
  rw [Session.onOffer]
  cases hd : (if B.offerFits o then decodeOffer o else none) with
  | none => exact H.wait (.of_recv rfl fun _ _ _ h => nomatch h)
  | some o' =>
      dsimp only
      split
      · exact hrefuse o' .busy
      · split
        · exact hrefuse o' .tooBig
        · split
          · exact hrefuse o' .empty
          · split at hd
            · rw [decodeOffer] at hd
              split at hd
              · rename_i hgeometry
                cases hd
                refine ⟨?_, ?_⟩
                · intro v hv
                  cases hv
                  exact ⟨file, .create ho hsize (hsize ▸ hgeometry.2)⟩
                · intro id card blob hmem
                  rcases List.mem_append.mp hmem with hmem | hmem
                  · exact H.handed id card blob hmem
                  · cases List.mem_singleton.mp hmem
              · cases hd
            · cases hd

/-- Another receiver, that holds the beginning of its file. -/
theorem hold (H : Receives offered x evs) {v : Receiver μ} {file : Bytes} (F : Held offered v file) :
    Receives offered { x with recv := some v } evs := by
  refine ⟨?_, H.handed⟩
  intro v' hv'
  cases hv'
  exact ⟨file, F⟩

/-- What is handed over is the file, if the receiver is at its end. -/
theorem finish (H : Receives offered x evs) {finished : Bool}
    (h : finished = true → ∀ v, x.recv = some v → (v.offer.id, v.parts.flatten) ∈ offered) :
    Receives offered (x.finish finished).1 (evs ++ (x.finish finished).2.evs) := by
  rw [Session.finish]
  cases hv : x.recv with
  | none => exact H.wait (.refl x)
  | some v =>
      dsimp only
      split
      · rename_i hfinished
        refine ⟨(fun _ hw => nomatch hw), ?_⟩
        intro id card blob hmem
        rcases List.mem_append.mp hmem with hmem | hmem
        · exact H.handed id card blob hmem
        · cases List.mem_singleton.mp hmem
          exact h hfinished v hv
      · exact H.wait (.refl x)

/-- A frame for the receiver, whose chunks are those of the file offered under its id. -/
theorem toReceiver (H : Receives offered x evs) (link : Link) {v : Receiver μ} (hv : x.recv = some v) (f : Frame μ)
    (now : Time) (hchunk : ∀ id i body, f = .chunk id i body → ∀ file, (id, file) ∈ offered →
      body = Session.chunkOf file i) :
    Receives offered (x.toReceiver link v f now).1 (evs ++ (x.toReceiver link v f now).2.evs) := by
  obtain ⟨file, F⟩ := H.held v hv
  obtain ⟨F', hall⟩ := F.onFrame f now fun i body hf => hchunk _ i body hf file F.offered
  have hwait := Waits.emit { x with recv := some (v.onFrame f now).1 } link
    ((v.onFrame f now).2.1.filter (fun e => !e.isDone)) .in_
  have hrun := ((H.hold F').wait hwait).finish (by
    intro hdone w hw
    obtain ⟨v', hv', hoffer, -, -, hparts⟩ := hwait.recv w hw
    cases hv'
    rw [hoffer, hparts, hall hdone]
    exact F'.offered)
  rw [List.append_assoc] at hrun
  rw [Session.toReceiver]
  cases (v.onFrame f now).2.2 with
  | none => exact hrun
  | some g => exact hrun

end Receives

end EncedoChat.Xfer
