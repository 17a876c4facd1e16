import EncedoChat.Lib.Base64
import EncedoChat.Lib.Utf8
import EncedoChat.Presence.Rotation

/-!
# Rendezvous

`lib/rendezvous.ts` and `lib/derive.ts`, and of `lib/core.ts` the identities and `derivePresence` with its neighbour. A
MAC key is its bytes; logging and the wiping of secrets are left out.
-/

namespace EncedoChat.Rendezvous

open Presence (Date Time)
open Calendar (FourDigits isoDate)
open Base64 (atob btoa)

/-- What is called of the platform: X25519 and HKDF-SHA256. `none` stands for a throw. -/
structure Platform where
  Priv : Type
  pub : Priv → Bytes
  dh : Priv → Bytes → Option Bytes
  /-- `hkdfBits(ikm, salt, info, len)` -/
  hkdfBits : Bytes → Bytes → Bytes → Nat → Bytes

abbrev Kid := String

structure RvParams where
  networkId : List Char
  dateUTC : List Char
  deriving DecidableEq

def RV_LABEL : String := "encedo-chat-rendezvous-v1"
def ANNOUNCE_LABEL : String := "encedo-chat-announce-mac-v1"
def ROTATION_LABEL : String := "encedo-chat-rotation-v1"

def rotationCtx (networkId : List Char) : Bytes := Utf8.encode networkId ++ [0]

def paramsInfo (p : RvParams) : Bytes := Utf8.encode p.networkId ++ 0 :: Utf8.encode p.dateUTC

/-- The digits that are full, and how many bits the register is left with. -/
def drain (value : UInt32) : Nat → List Nat × Nat
  | bits + 5 =>
    let r := drain value bits
    ((value >>> UInt32.ofNat bits &&& 31).toNat :: r.1, r.2)
  | bits => ([], bits)

/-- The digits of the bytes to come, with `bits` bits in the register. -/
def feed (value : UInt32) (bits : Nat) : Bytes → List Nat
  | [] => if 0 < bits then [(value <<< UInt32.ofNat (5 - bits) &&& 31).toNat] else []
  | b :: bs =>
    let value := value <<< 8 ||| b.toUInt32
    let r := drain value (bits + 8)
    r.1 ++ feed value r.2 bs

/-- `a–z 2–7` -/
def digit (n : Nat) : Char := Char.ofNat (if n < 26 then n + 97 else n + 24)

/-- The register is never masked: what has left it at the top is never asked for again. -/
def base32 (bytes : Bytes) : List Char := (feed 0 0 bytes).map digit

def topicFromMaterial (mat : Bytes) : List Char := (base32 mat).take 52

/-- Seconds past midnight. -/
def offsetFromMaterial (mat : Bytes) : Nat := mat.getU32 0 % 86400

/-- What is derived for a day. -/
structure Day where
  topic : List Char
  macKey : Bytes
  deriving DecidableEq

section Derivations
variable (C : Platform)

/-- The label is HKDF's info, the context its salt. -/
def kdf (label : String) (ikm ctx : Bytes) (len : Nat) : Bytes := C.hkdfBits ikm ctx (Utf8.encode label.toList) len

def topicFromSecret (ss : Bytes) (p : RvParams) : List Char := topicFromMaterial (kdf C RV_LABEL ss (paramsInfo p) 32)

def announceMacKey (ss : Bytes) (p : RvParams) : Bytes := kdf C ANNOUNCE_LABEL ss (paramsInfo p) 32

def rotationOffsetSec (ss : Bytes) (p : RvParams) : Nat :=
  offsetFromMaterial (kdf C ROTATION_LABEL ss (rotationCtx p.networkId) 4)

def presenceFromSecret (ss : Bytes) (p : RvParams) : Day := ⟨topicFromSecret C ss p, announceMacKey C ss p⟩

/-! ## Identities -/

abbrev Ecdh := Units → Option Kid → Option Bytes

/-- Label, peer, context, length and the peer's KID. -/
abbrev Derive := String → Units → Bytes → Nat → Option Kid → Option Bytes

structure Identity where
  pub : Units
  ecdh : Ecdh
  derive : Option Derive

structure Peer where
  pub : Units
  kid : Option Kid

def deriveWith (id : Identity) (label : String) (peerPub : Units) (ctx : Bytes) (len : Nat) (peerKid : Option Kid) :
    Option Bytes :=
  match id.derive with
  | some derive => derive label peerPub ctx len peerKid
  | none => (id.ecdh peerPub peerKid).map fun ss => kdf C label ss ctx len

def deriveOverEcdh (ecdh : Ecdh) : Derive := fun label peerPub ctx len peerKid =>
  (ecdh peerPub peerKid).map fun ss => kdf C label ss ctx len

/-- The device: a token for a scope, and its two ECDH calls. -/
structure Hem where
  Token : Type
  authorizePassword : String → Option Token
  ecdh : Token → Kid → Units → Option Bytes
  ecdhKid : Token → Kid → Kid → Option Bytes

def Hem.secret (hem : Hem) (kid : Kid) : Ecdh := fun peerPub peerKid => do
  let t ← hem.authorizePassword ("keymgmt:use:" ++ kid)
  match peerKid.filter (· ≠ "") with
  | some peerKid => hem.ecdhKid t kid peerKid
  | none => hem.ecdh t kid peerPub

def hemIdentityFrom (hem : Hem) (kid : Kid) (pub : Units) : Identity where
  pub := pub
  ecdh := hem.secret kid
  derive := some (deriveOverEcdh C (hem.secret kid))

def softwareSecret (priv : C.Priv) : Ecdh := fun peerPub _ => (atob peerPub).bind (C.dh priv)

/-- What was saved before, or else a key that is made now. -/
def browserSoftwareIdentity (saved : Option (Units × C.Priv)) (fresh : C.Priv) : Identity :=
  let d := saved.getD (btoa (C.pub fresh), fresh)
  { pub := d.1, ecdh := softwareSecret C d.2, derive := some (deriveOverEcdh C (softwareSecret C d.2)) }

def derivePresence (id : Identity) (peer : Peer) (p : RvParams) : Option Day := do
  let ctx := paramsInfo p
  let topic ← deriveWith C id RV_LABEL peer.pub ctx 32 peer.kid
  let macKey ← deriveWith C id ANNOUNCE_LABEL peer.pub ctx 32 peer.kid
  return ⟨topicFromMaterial topic, macKey⟩

def deriveRotationOffset (id : Identity) (peer : Peer) (p : RvParams) : Option Nat :=
  (deriveWith C id ROTATION_LABEL peer.pub (rotationCtx p.networkId) 4 peer.kid).map offsetFromMaterial

end Derivations

/-! ## A platform to compute with -/

/-- Multiplication modulo 256 for X25519, and HKDF that keeps what it is given. -/
def samplePlatform : Platform where
  Priv := UInt8
  pub := fun a => [a]
  dh := fun a u => match u with
    | [b] => some [a * b]
    | _ => none
  hkdfBits := fun ikm salt info len => (ikm ++ (salt ++ info) ++ List.replicate len 0).take len

/-- A device with one key in it, and one that was imported. -/
def sampleHem (a b : UInt8) : Hem where
  Token := Unit
  authorizePassword := fun _ => some ()
  ecdh := fun _ _ pub => (atob pub).bind (samplePlatform.dh a)
  ecdhKid := fun _ _ _ => samplePlatform.dh a [b]

section Derivations
variable {C : Platform}

/-! ## The same topic for both -/

/-- The identity is that of the key `a`, and what it answers about the peer is the shared secret. -/
structure Honest (C : Platform) (id : Identity) (a : C.Priv) (peer : Peer) : Prop where
  pub : id.pub = btoa (C.pub a)
  ecdh : ∀ ss, id.ecdh peer.pub peer.kid = some ss → ∃ u, atob peer.pub = some u ∧ C.dh a u = some ss
  derive : ∀ d ∈ id.derive, d = deriveOverEcdh C id.ecdh

/-- The device keeps `a` under its KID, and what it keeps under the peer's is the peer's key. -/
structure Hem.Keeps (C : Platform) (hem : Hem) (kid : Kid) (a : C.Priv) (peer : Peer) : Prop where
  ecdh : ∀ t pub ss, hem.ecdh t kid pub = some ss → ∃ u, atob pub = some u ∧ C.dh a u = some ss
  ecdhKid : ∀ t k ss, peer.kid = some k → hem.ecdhKid t kid k = some ss →
    ∃ u, atob peer.pub = some u ∧ C.dh a u = some ss

theorem honest_hem {hem : Hem} {kid : Kid} {a : C.Priv} {peer : Peer} (h : hem.Keeps C kid a peer) :
    Honest C (hemIdentityFrom C hem kid (btoa (C.pub a))) a peer where
  pub := rfl
  derive := fun d hd => (Option.some.inj (Option.mem_def.mp hd)).symm
  ecdh := by
    intro ss hss
    obtain ⟨t, -, hcall⟩ := Option.bind_eq_some_iff.mp hss
    cases hkid : peer.kid.filter (· ≠ "") with
    | none =>
        rw [hkid] at hcall
        exact h.ecdh t _ ss hcall
    | some k =>
        rw [hkid] at hcall
        exact h.ecdhKid t k ss (Option.filter_eq_some_iff.mp hkid).1 hcall

theorem honest_software (a : C.Priv) (peer : Peer) : Honest C (browserSoftwareIdentity C none a) a peer where
  pub := rfl
  derive := fun d hd => (Option.some.inj (Option.mem_def.mp hd)).symm
  ecdh := fun _ hss => Option.bind_eq_some_iff.mp hss

/-- Where the derivation runs makes no difference. -/
theorem deriveWith_eq {id : Identity} (h : ∀ d ∈ id.derive, d = deriveOverEcdh C id.ecdh) (label : String)
    (peerPub : Units) (ctx : Bytes) (len : Nat) (peerKid : Option Kid) :
    deriveWith C id label peerPub ctx len peerKid = deriveOverEcdh C id.ecdh label peerPub ctx len peerKid := by
  cases hd : id.derive with
  | none => simp only [deriveWith, hd, deriveOverEcdh]
  | some d => simp only [deriveWith, hd, h d hd]

theorem Honest.derived {id : Identity} {a : C.Priv} {peer : Peer} (h : Honest C id a peer) {label : String}
    {ctx mat : Bytes} {len : Nat} (hm : deriveWith C id label peer.pub ctx len peer.kid = some mat) :
    ∃ u ss, atob peer.pub = some u ∧ C.dh a u = some ss ∧ mat = kdf C label ss ctx len := by
  rw [deriveWith_eq h.derive] at hm
  obtain ⟨ss, hss, rfl⟩ := Option.map_eq_some_iff.mp hm
  obtain ⟨u, hu, hdh⟩ := h.ecdh ss hss
  exact ⟨u, ss, hu, hdh, rfl⟩

/-- The derivation through the identity is the one from the secret. -/
theorem Honest.presence {id : Identity} {a : C.Priv} {peer : Peer} (h : Honest C id a peer) {p : RvParams} {r : Day}
    (hr : derivePresence C id peer p = some r) :
    ∃ u ss, atob peer.pub = some u ∧ C.dh a u = some ss ∧ r = presenceFromSecret C ss p := by
  obtain ⟨topic, htopic, hr⟩ := Option.bind_eq_some_iff.mp hr
  obtain ⟨macKey, hkey, hr⟩ := Option.bind_eq_some_iff.mp hr
  obtain ⟨u, ss, hu, hss, rfl⟩ := h.derived htopic
  obtain ⟨u', ss', hu', hss', rfl⟩ := h.derived hkey
  obtain rfl : u = u' := Option.some.inj (hu.symm.trans hu')
  obtain rfl : ss = ss' := Option.some.inj (hss.symm.trans hss')
  exact ⟨u, ss, hu, hss, (Option.some.inj hr).symm⟩

theorem Honest.offset {id : Identity} {a : C.Priv} {peer : Peer} (h : Honest C id a peer) {p : RvParams} {off : Nat}
    (ho : deriveRotationOffset C id peer p = some off) :
    ∃ u ss, atob peer.pub = some u ∧ C.dh a u = some ss ∧ off = rotationOffsetSec C ss p := by
  obtain ⟨mat, hmat, rfl⟩ := Option.map_eq_some_iff.mp ho
  obtain ⟨u, ss, hu, hss, rfl⟩ := h.derived hmat
  exact ⟨u, ss, hu, hss, rfl⟩

theorem rotationOffsetSec_lt (ss : Bytes) (p : RvParams) : rotationOffsetSec C ss p < 86400 := Nat.mod_lt _ (by decide)

/-- The days of a clock contain the day of another that differs by no more than the guard. -/
theorem rendezvousDay_mem {x y offsetMs overlapMs : Int} {days : List (List Char)} (hskew : |x - y| ≤ overlapMs)
    (hguard : overlapMs ≤ Presence.DAY) (hfour : FourDigits (Presence.rendezvousDay x offsetMs))
    (hdays : Presence.Iso.activeDatesForOffset x offsetMs overlapMs = some days) :
    Presence.Iso.rendezvousDay y offsetMs ∈ days := by
  rw [Presence.Iso.activeDatesForOffset_eq overlapMs hfour] at hdays
  obtain rfl := Option.some.inj hdays
  exact List.mem_map_of_mem (Presence.rendezvousDay_mem hskew hguard)

/-- Two identities that have each other as peers derive the same days, whatever their backends, and they are those of
the secret they share. Their offsets are the same, and where their clocks differ by no more than the guard each holds
the topic that the other is on. -/
theorem both_sides_meet (hdh : ∀ a b, C.dh a (C.pub b) = C.dh b (C.pub a)) {idA idB : Identity} {a b : C.Priv}
    {peerA peerB : Peer} (hA : Honest C idA a peerB) (hB : Honest C idB b peerA) (hpa : peerA.pub = idA.pub)
    (hpb : peerB.pub = idB.pub) :
    (∀ p r r', derivePresence C idA peerB p = some r → derivePresence C idB peerA p = some r' →
      r = r' ∧ ∃ ss, C.dh a (C.pub b) = some ss ∧ r = presenceFromSecret C ss p) ∧
      ∀ p p' off off', p.networkId = p'.networkId → deriveRotationOffset C idA peerB p = some off →
        deriveRotationOffset C idB peerA p' = some off' →
        off = off' ∧ off < 86400 ∧ ∀ (x y overlapMs : Int) days, |x - y| ≤ overlapMs → overlapMs ≤ Presence.DAY →
          FourDigits (Presence.rendezvousDay x (off * 1000)) →
          Presence.Iso.activeDatesForOffset x (off * 1000) overlapMs = some days →
          ∃ d ∈ days, d = Presence.Iso.rendezvousDay y (off' * 1000) ∧
            ∀ r r', derivePresence C idA peerB ⟨p.networkId, d⟩ = some r →
              derivePresence C idB peerA ⟨p'.networkId, d⟩ = some r' → r.topic = r'.topic := by
  have hself : ∀ u, atob peerB.pub = some u → u = C.pub b := by
    intro u hu
    rw [hpb, hB.pub, Base64.atob_btoa] at hu
    exact (Option.some.inj hu).symm
  have hpeer : ∀ u, atob peerA.pub = some u → u = C.pub a := by
    intro u hu
    rw [hpa, hA.pub, Base64.atob_btoa] at hu
    exact (Option.some.inj hu).symm
  have hday : ∀ p r r', derivePresence C idA peerB p = some r → derivePresence C idB peerA p = some r' →
      r = r' ∧ ∃ ss, C.dh a (C.pub b) = some ss ∧ r = presenceFromSecret C ss p := by
    intro p r r' hr hr'
    obtain ⟨u, ss, hu, hss, rfl⟩ := hA.presence hr
    obtain ⟨u', ss', hu', hss', rfl⟩ := hB.presence hr'
    rw [hself u hu] at hss
    rw [hpeer u' hu', ← hdh, hss] at hss'
    obtain rfl := Option.some.inj hss'
    exact ⟨rfl, ss, hss, rfl⟩
  refine ⟨hday, fun p p' off off' hnet ho ho' => ?_⟩
  obtain ⟨u, ss, hu, hss, rfl⟩ := hA.offset ho
  obtain ⟨u', ss', hu', hss', rfl⟩ := hB.offset ho'
  rw [hself u hu] at hss
  rw [hpeer u' hu', ← hdh, hss] at hss'
  obtain rfl := Option.some.inj hss'
  have hoff : rotationOffsetSec C ss p = rotationOffsetSec C ss p' := by
    rw [rotationOffsetSec, hnet, ← rotationOffsetSec]
  refine ⟨hoff, rotationOffsetSec_lt ss p, fun x y overlapMs days hskew hguard hfour hdays => ?_⟩
  refine ⟨_, rendezvousDay_mem hskew hguard hfour hdays, by rw [hoff], fun r r' hr hr' => ?_⟩
  rw [← hnet] at hr'
  exact congrArg Day.topic (hday _ r r' hr hr').1

theorem sampleHem_keeps (a b : UInt8) (kid : Kid) (peerKid : Option Kid) :
    (sampleHem a b).Keeps samplePlatform kid a ⟨btoa [b], peerKid⟩ where
  ecdh := fun _ _ _ h => Option.bind_eq_some_iff.mp h
  ecdhKid := fun _ _ _ _ h => ⟨[b], Base64.atob_btoa [b], h⟩

/-- A device and a key in the browser. -/
theorem both_sides_meet_sample : ∃ r,
    derivePresence samplePlatform (hemIdentityFrom samplePlatform (sampleHem 3 5) "k" (btoa [3])) ⟨btoa [5], some "p"⟩
        ⟨['m'], isoDate 0⟩ = some r ∧
      derivePresence samplePlatform (browserSoftwareIdentity samplePlatform none (5 : UInt8)) ⟨btoa [3], none⟩
        ⟨['m'], isoDate 0⟩ = some r := by
  have hA := honest_hem (sampleHem_keeps 3 5 "k" (some "p"))
  have hB := honest_software (C := samplePlatform) (5 : UInt8) ⟨btoa [3], none⟩
  obtain ⟨r, hr⟩ := Option.isSome_iff_exists.mp (show (derivePresence samplePlatform
    (hemIdentityFrom samplePlatform (sampleHem 3 5) "k" (btoa [3])) ⟨btoa [5], some "p"⟩ ⟨['m'], isoDate 0⟩).isSome
      from rfl)
  obtain ⟨r', hr'⟩ := Option.isSome_iff_exists.mp (show (derivePresence samplePlatform
    (browserSoftwareIdentity samplePlatform none (5 : UInt8)) ⟨btoa [3], none⟩ ⟨['m'], isoDate 0⟩).isSome from rfl)
  have hdh : ∀ a b : UInt8, samplePlatform.dh a [b] = samplePlatform.dh b [a] := fun a b =>
    congrArg some (congrArg (fun x : UInt8 => [x]) (UInt8.mul_comm a b))
  obtain ⟨rfl, -⟩ := (both_sides_meet hdh hA hB rfl rfl).1 _ r r' hr hr'
  exact ⟨r, hr, hr'⟩

end Derivations

end EncedoChat.Rendezvous
