import Mathlib.Algebra.Order.Ring.Rat
import Mathlib.Algebra.Order.Ring.Int
import Mathlib.Data.Rat.Cast.Order
import Mathlib.Tactic.NormNum
import EncedoChat.Lib.Json
import EncedoChat.Lib.OrdMap
import EncedoChat.Presence.Rotation

/-!
# The announce

`lib/announce.ts`: `buildAnnounce`, `verifyAnnounce` and the nonce cache. A frame is the JSON read from it, if it is
any.
-/

namespace EncedoChat.SelfSession

open Presence (Time)

/-- HMAC as WebCrypto has it, its MACs in base64, and how a number is written into a text. -/
structure Mac where
  Key : Type
  [decKey : DecidableEq Key]
  sign : Key → String → String
  verify : Key → String → String → Bool
  numText : Rat → String
  verify_sign : ∀ k msg, verify k (sign k msg) msg = true

attribute [instance] Mac.decKey

def REPLAY_WINDOW_MS : Int := 5 * 60 * 1000

variable (M : Mac)

def macMessage (v : Rat) (peer nonce : String) (ts : Rat) : String :=
  M.numText v ++ "|" ++ peer ++ "|" ++ nonce ++ "|" ++ M.numText ts

def buildAnnounce (peerId : String) (macKey : M.Key) (nonce : String) (ts : Time) : Json :=
  .obj [("v", .num 3), ("peer", .str peerId), ("nonce", .str nonce), ("ts", .num ts),
    ("mac", .str (M.sign macKey (macMessage M 3 peerId nonce ts)))]

/-- The number, if `typeof v === 'number'` and it is finite: the infinite ones are outside every window. -/
def asNum : Option Json → Option Rat
  | some (.num q) => some q
  | _ => none

/-- The peer and the nonce of a valid announce; else why it is none. -/
def verifyAnnounce (data : Option Json) (macKey : M.Key) (now : Time) : Except String (String × String) :=
  match data with
  | none => .error "parse"
  | some m =>
    if Json.isNum (m.field "v") 3 then
      match Json.asStr (m.field "peer"), Json.asStr (m.field "nonce"), asNum (m.field "ts"), Json.asStr (m.field "mac") with
      | some peer, some nonce, some ts, some mac =>
        if REPLAY_WINDOW_MS < |(now : Rat) - ts| then .error "timestamp"
        else if M.verify macKey mac (macMessage M 3 peer nonce ts) then .ok (peer, nonce)
        else .error "mac"
      | _, _, _, _ => .error "shape"
    else .error "version"

/-- What a window says of itself is valid to who has the key, in time. -/
theorem verifyAnnounce_build {peer nonce : String} {key : M.Key} {ts now : Time}
    (h : |now - ts| ≤ REPLAY_WINDOW_MS) :
    verifyAnnounce M (some (buildAnnounce M peer key nonce ts)) key now = .ok (peer, nonce) := by
  have hin : ¬(REPLAY_WINDOW_MS : Rat) < |(now : Rat) - ts| := by
    rw [not_lt]
    exact_mod_cast h
  simp [verifyAnnounce, buildAnnounce, Json.field, Json.isNum, Json.asStr, asNum, List.lookup_cons, hin, M.verify_sign]

/-- Accepted nonces, oldest first, and when each was accepted. -/
abbrev NonceCache := OrdMap String Time

namespace NonceCache

/-- The sweep of `add`: it stops at the first nonce young enough. -/
def sweep (c : NonceCache) (now : Time) : NonceCache :=
  ⟨c.entries.dropWhile fun e => 2 * REPLAY_WINDOW_MS < now - e.2,
    c.nodup.sublist ((List.dropWhile_sublist _).map Prod.fst)⟩

def add (c : NonceCache) (n : String) (now : Time) : NonceCache :=
  let c := c.set n now
  if c.size ≤ 256 then c else sweep c now

/-- A nonce just accepted stays. -/
theorem add_ne_nil (c : NonceCache) (n : String) (now : Time) : (add c n now).entries ≠ [] := by
  have hmem : (n, now) ∈ (OrdMap.set c n now).entries := OrdMap.get_eq_some.mp (OrdMap.get_set_self c n now)
  rw [add]
  split
  · exact List.ne_nil_of_mem hmem
  · intro hnil
    have hold := List.dropWhile_eq_nil_iff.mp hnil _ hmem
    simp [REPLAY_WINDOW_MS] at hold

end NonceCache

end EncedoChat.SelfSession
