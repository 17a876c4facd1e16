import EncedoChat.Lib.Run
import EncedoChat.Group.SenderKey
import EncedoChat.Group.Session

/-!
# Openings that overlap

`SenderReceiver.open`, and `receive` of `GroupSession` around it, cut at every await. A chain key and the keys set
aside are buffers: a call goes on reading one that another call may have wiped meanwhile.
-/

namespace EncedoChat.Group

variable {S : Suite} {I : Identities}

/-- What the receivers are made with, the AEAD, and what `fill(0)` leaves of a key. -/
structure Platform (S : Suite) where
  opts : ReceiverOpts
  opens : Open S
  zero : S.Key

/-- `SenderReceiver` with its buffers. -/
structure BufReceiver (S : Suite) where
  mem : List S.Key
  /-- `this.key` -/
  key : Nat
  n : Nat
  /-- a buffer and the time it was set aside -/
  skipped : OrdMap Nat (Nat × Time)

/-- The chain key that the loop of `open` is at: the receiver's buffer, or one of the call. -/
inductive Cur (S : Suite) where
  | shared (b : Nat)
  | own (key : S.Key)

/-- Where the message key comes from: a buffer set aside, or the walk up to it with the keys passed over. -/
inductive Source (S : Suite) where
  | stashed (b : Nat)
  | walked (mk : S.Key) (passed : List (Nat × S.Key)) (next : S.Key)

/-- What a call of `open` waits for, with what has been derived so far. -/
inductive Awaiting (S : Suite) where
  /-- `msgKey(cur)` at counter `i` -/
  | msgKey (cur : Cur S) (i : Nat) (passed : List (Nat × S.Key)) (mk : S.Key)
  /-- `chainNext(cur)` at counter `i` -/
  | chainNext (i : Nat) (passed : List (Nat × S.Key)) (mk next : S.Key)
  /-- `importKey` of the AEAD -/
  | importKey (src : Source S) (key : S.Key)
  | aeadNonce (src : Source S) (key : S.Key) (nonce : S.Nonce)
  | decrypt (src : Source S) (pt : Option Bytes)

namespace BufReceiver

/-- `SenderReceiver.from(key, n)`. -/
def make (key : S.Key) (n : Nat) : BufReceiver S := ⟨[key], 0, n, .empty⟩

def read (P : Platform S) (r : BufReceiver S) (b : Nat) : S.Key := (r.mem[b]?).getD P.zero

def wipe (P : Platform S) (r : BufReceiver S) (b : Nat) : BufReceiver S := { r with mem := r.mem.set b P.zero }

def aged (P : Platform S) (t : Time) (s : Nat × Time) : Bool := decide (t - s.2 > P.opts.ttlMs)

def prune (P : Platform S) (r : BufReceiver S) (t : Time) : BufReceiver S :=
  { r with
    mem := r.skipped.entries.foldl (fun mem e => if aged P t e.2 then mem.set e.2.1 P.zero else mem) r.mem
    skipped := r.skipped.filter fun _ s => !aged P t s }

def readCur (P : Platform S) (r : BufReceiver S) : Cur S → S.Key
  | .shared b => r.read P b
  | .own key => key

def readSource (P : Platform S) (r : BufReceiver S) : Source S → S.Key
  | .stashed b => r.read P b
  | .walked key _ _ => key

/-- `open` from the pruning up to its first await. -/
def start (P : Platform S) (r : BufReceiver S) (n : Nat) : Except Refusal (Awaiting S) :=
  match r.skipped.get n with
  | some s => .ok (.importKey (.stashed s.1) (r.read P s.1))
  | none =>
    if n < r.n then .error .null
    else if n - r.n > P.opts.maxSkip then .error (.skipBound (n - r.n) P.opts.maxSkip)
    else .ok (.msgKey (.shared r.key) r.n [] (S.chain.messageKey (r.read P r.key)))

/-- The keys passed over are set aside, each in a buffer of its own. -/
def setAside (t : Time) : List (Nat × S.Key) → BufReceiver S → BufReceiver S
  | [], r => r
  | p :: ps, r => setAside t ps { r with mem := r.mem ++ [p.2], skipped := r.skipped.set p.1 (r.mem.length, t) }

def commit (P : Platform S) (r : BufReceiver S) (n : Nat) (t : Time) : Source S → BufReceiver S
  | .stashed b => { r.wipe P b with skipped := r.skipped.delete n }
  | .walked _ passed next =>
    let r := (setAside t passed r).wipe P r.key
    { r with mem := r.mem ++ [next], key := r.mem.length, n := n + 1 }

/-- `open` from one await to the next, or to its end. -/
def goOn (P : Platform S) (r : BufReceiver S) (n : Nat) (header ct : Bytes) (t : Time) :
    Awaiting S → BufReceiver S × Sum (Awaiting S) (Option Bytes)
  | .msgKey cur i passed key => (r, .inl (.chainNext i passed key (S.chain.chainNext (r.readCur P cur))))
  | .chainNext i passed key next =>
    if i < n then (r, .inl (.msgKey (.own next) (i + 1) (passed ++ [(i, key)]) (S.chain.messageKey next)))
    else (r, .inl (.importKey (.walked key passed next) key))
  | .importKey src key => (r, .inl (.aeadNonce src key (S.aeadNonce (r.readSource P src) (Bytes.u32be n))))
  | .aeadNonce src key nonce => (r, .inl (.decrypt src (P.opens key nonce header ct)))
  | .decrypt _ none => (r, .inr none)
  | .decrypt src (some pt) => (r.commit P n t src, .inr (some pt))

end BufReceiver

/-! ## Calls on the receiver of one member -/

inductive Pending (S : Suite) where
  /-- `receive`, at the MAC -/
  | checking (frame : Bytes)
  | opening (n : Nat) (header ct : Bytes) (at_ : Awaiting S)

structure Opened where
  n : Nat
  header : Bytes
  ct : Bytes
  pt : Bytes
  deriving DecidableEq

structure Inbox (S : Suite) (I : Identities) where
  session : Session I
  member : I.Pub
  recv : BufReceiver S
  calls : OrdMap Nat (Pending S)
  /-- what calls of `open` returned, newest first -/
  opened : List Opened

inductive InboxAct where
  | receive (id : Nat) (frame : Bytes)
  | open_ (id n : Nat) (header ct : Bytes) (t : Time)
  | resume (id : Nat) (t : Time)

/-- The call that acts. -/
def InboxAct.call : InboxAct → Nat
  | .receive id _ | .open_ id _ _ _ _ | .resume id _ => id

namespace Inbox

def start (v : Session I) (member : I.Pub) (key : S.Key) (n : Nat) : Inbox S I :=
  ⟨v, member, .make key n, .empty, []⟩

def ended (w : Inbox S I) (id : Nat) : Inbox S I := { w with calls := w.calls.delete id }

def begin_ (P : Platform S) (w : Inbox S I) (id n : Nat) (header ct : Bytes) (t : Time) : Inbox S I :=
  let w := { w with recv := w.recv.prune P t }
  match w.recv.start P n with
  | .error _ => w.ended id
  | .ok s => { w with calls := w.calls.set id (.opening n header ct s) }

/-- The frame, if it is the member's and proves our MAC. -/
def accepts (w : Inbox S I) (frame : Bytes) : Option (Session.Accepted I) :=
  (w.session.accept frame).filter fun a => decide (a.sender = w.member)

def goOn (P : Platform S) (w : Inbox S I) (id n : Nat) (header ct : Bytes) (s : Awaiting S) (t : Time) : Inbox S I :=
  match w.recv.goOn P n header ct t s with
  | (r, .inl s') => { w with recv := r, calls := w.calls.set id (.opening n header ct s') }
  | (r, .inr none) => { w with recv := r }.ended id
  | (r, .inr (some pt)) => { w with recv := r, opened := ⟨n, header, ct, pt⟩ :: w.opened }.ended id

def resume (P : Platform S) (w : Inbox S I) (id : Nat) (t : Time) : Inbox S I :=
  match w.calls.get id with
  | none => w
  | some (.checking frame) =>
    match w.accepts frame with
    | none => w.ended id
    | some a => w.begin_ P id a.ctr a.header a.ct t
  | some (.opening n header ct s) => w.goOn P id n header ct s t

/-- A call's name is used for one call at a time. -/
def act (P : Platform S) (w : Inbox S I) : InboxAct → Inbox S I
  | .receive id frame => if (w.calls.get id).isSome then w else { w with calls := w.calls.set id (.checking frame) }
  | .open_ id n header ct t => if (w.calls.get id).isSome then w else w.begin_ P id n header ct t
  | .resume id t => w.resume P id t

end Inbox

/-! ## When calls keep out of each other's way -/

def Source.isWalk : Source S → Bool
  | .stashed _ => false
  | .walked .. => true

/-- The call walks the chain, or has walked it. -/
def Awaiting.walks : Awaiting S → Bool
  | .msgKey .. | .chainNext .. => true
  | .importKey src _ | .aeadNonce src _ _ | .decrypt src _ => src.isWalk

/-- The call opens with a key that was set aside for this counter. -/
def Pending.takes (n : Nat) : Pending S → Bool
  | .checking _ => false
  | .opening n' _ _ s => decide (n' = n) && !s.walks

/-- The frame of a call that has yet to begin its opening. -/
def Pending.toCheck : Pending S → Option Bytes
  | .checking frame => some frame
  | .opening .. => none

def Pending.walks : Pending S → Bool
  | .checking _ => false
  | .opening _ _ _ s => s.walks

namespace Inbox

/-- The counter that a call is to open. -/
def counter (w : Inbox S I) : Pending S → Option Nat
  | .checking frame => (w.accepts frame).map Session.Accepted.ctr
  | .opening n _ _ _ => some n

/-- No key grows too old while a call is to open its counter. -/
def Fresh (P : Platform S) (w : Inbox S I) (t : Time) : Prop :=
  ∀ e ∈ w.calls.entries, ∀ k ∈ w.counter e.2, ∀ s ∈ w.recv.skipped.get k, BufReceiver.aged P t s = false

/-- An opening of `n` may begin: no other takes the key set aside for it, and no other walks the chain if it has to. -/
def Clear (w : Inbox S I) (n : Nat) : Prop :=
  if (w.recv.skipped.get n).isSome then ∀ e ∈ w.calls.entries, e.2.takes n = false
  else w.recv.n ≤ n → ∀ e ∈ w.calls.entries, e.2.walks = false

/-- What a call, as it is made, is to open. -/
def hands (w : Inbox S I) : InboxAct → Option (Nat × Bytes × Bytes)
  | .receive _ frame => (w.accepts frame).map fun a => (a.ctr, a.header, a.ct)
  | .open_ _ n header ct _ => some (n, header, ct)
  | .resume _ _ => none

/-- Walks are one at a time, so are openings with one key set aside, and no key needed is too old. -/
def Apart (P : Platform S) (w : Inbox S I) : InboxAct → Prop
  | .receive _ _ => True
  | .open_ _ n _ _ t => w.Fresh P t ∧ (∀ s ∈ w.recv.skipped.get n, BufReceiver.aged P t s = false) ∧ w.Clear n
  | .resume id t => ∀ p ∈ w.calls.get id, ∀ frame ∈ p.toCheck, ∀ a ∈ w.accepts frame, w.Fresh P t ∧ w.Clear a.ctr

instance (P : Platform S) (w : Inbox S I) (t : Time) : Decidable (w.Fresh P t) :=
  inferInstanceAs (Decidable (∀ e ∈ _, ∀ k ∈ _, ∀ s ∈ _, _))

instance (w : Inbox S I) (n : Nat) : Decidable (w.Clear n) := inferInstanceAs (Decidable (ite _ _ _))

instance (P : Platform S) (w : Inbox S I) (a : InboxAct) : Decidable (w.Apart P a) :=
  match a with
  | .receive _ _ => isTrue trivial
  | .open_ _ _ _ _ _ => inferInstanceAs (Decidable (_ ∧ (∀ s ∈ _, _) ∧ _))
  | .resume _ _ => inferInstanceAs (Decidable (∀ p ∈ _, ∀ f ∈ _, ∀ a ∈ _, _ ∧ _))

end Inbox

/-! ## How far a call has to go -/

/-- The awaits left to an opening of counter `n`. -/
def Awaiting.left (n : Nat) : Awaiting S → Nat
  | .msgKey _ i _ _ => 2 * (n - i) + 5
  | .chainNext i _ _ _ => 2 * (n - i) + 4
  | .importKey _ _ => 3
  | .aeadNonce _ _ _ => 2
  | .decrypt _ _ => 1

def Inbox.left (w : Inbox S I) : Pending S → Nat
  | .checking frame => ((w.accepts frame).elim 0 fun a => 2 * a.ctr) + 6
  | .opening n _ _ s => s.left n

end EncedoChat.Group
