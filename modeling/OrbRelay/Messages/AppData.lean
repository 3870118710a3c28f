import OrbRelay.Library.Encoding

/-!
# App data, its three hash formats and their verification

The `common.v1` messages that a pairing checks. BLAKE3 is a parameter: an
arbitrary function from the bytes fed to a hasher to its output stream. A call
that panics has the result `none`.
-/
namespace OrbRelay.Common
open Encoding

/-- Static data that is hashed with the user QR code. -/
structure AppAuthenticatedData where
  selfCustodyPublicKey : String
  identityCommitment : String
  os : String
  osVersion : String
  pcpVersion : UInt32
  version : UInt32
  devicePublicKey : String
deriving DecidableEq, Repr

structure OrbAuthenticatedData where
  version : UInt32
  ipcpEncryptionPublicKey : Bytes
  orbNonce : Bytes
  requestNonce : Bytes
deriving DecidableEq, Repr

structure IpcpHpkePayload where
  enc : Bytes
  ciphertext : Bytes
deriving DecidableEq, Repr

/-- The fields of an app announcement that its verification reads. -/
structure AnnounceAppId where
  protocolVersion : UInt64
  appData : Option AppAuthenticatedData
  encryptedIpcpPayload : Option IpcpHpkePayload
  orbNonce : Bytes
deriving DecidableEq, Repr

/-- Why app data could not be hashed. -/
inductive HashError where
  | wrongVersion (version : UInt32)
  | missingDevicePublicKey
deriving DecidableEq, Repr

/-- Why app data did not verify against a hash. -/
inductive VerifyError where
  | emptyHash
  | unsupportedVersion (version : UInt32)
  | unboundDevicePublicKey
  | unhashable (e : HashError)
  | mismatch
  | missingAppData
  | orbNonceMismatch
  | unboundIpcpPayload
deriving DecidableEq, Repr

/-- Default PCP version value. -/
def pcpVersionDefault : UInt32 := 2

/-- The output stream of the hash function for each input. -/
abbrev Xof := Bytes → ℕ → UInt8

/-- A BLAKE3 hasher is what it has been fed. -/
structure Hasher where
  input : Bytes
deriving DecidableEq, Repr

namespace Hasher

def new : Hasher := ⟨[]⟩

def update (h : Hasher) (bs : Bytes) : Hasher := ⟨h.input ++ bs⟩

/-- `finalize_xof().fill` on a buffer of `n` bytes. -/
def fill (xof : Xof) (h : Hasher) (n : ℕ) : Bytes := (List.range n).map (xof h.input)

@[simp] theorem fill_length (xof : Xof) (h : Hasher) (n : ℕ) : (h.fill xof n).length = n := by
  simp [fill]

end Hasher

/-- `u32::to_le_bytes`. -/
def toLeBytes (n : UInt32) : Bytes := littleEndian 4 n.toNat

@[simp] theorem toLeBytes_length (n : UInt32) : (toLeBytes n).length = 4 := by
  simp [toLeBytes]

theorem toLeBytes_injective : Function.Injective toLeBytes := by
  intro n m h
  exact UInt32.toNat_inj.mp
    (littleEndian_injective (by simpa using n.toNat_lt) (by simpa using m.toNat_lt) h)

/-- The length of a field fits the four bytes of its prefix. -/
def Fits (v : String) : Prop := (utf8 v).length < 2 ^ 32

instance (v : String) : Decidable (Fits v) := inferInstanceAs (Decidable (_ < _))

/-- One round of the loop over the fields: `u32::try_from(v.len()).expect(..)`
panics on a field that is too long. -/
def Hasher.updatePrefixed (h : Hasher) (v : String) : Option Hasher :=
  if Fits v then
    some ((h.update (littleEndian 4 (utf8 v).length)).update (utf8 v))
  else none

namespace AppAuthenticatedData

/-- Current hash format version for new producers. -/
def VERSION : UInt32 := 2

/-- The hasher that `hash` finalizes. -/
def hashHasher (d : AppAuthenticatedData) : Option (Except HashError Hasher) :=
  if d.version ≠ VERSION then some (.error (.wrongVersion d.version))
  else if d.devicePublicKey = "" then some (.error .missingDevicePublicKey)
  else do
    let hasher ← [d.selfCustodyPublicKey, d.identityCommitment, d.os, d.osVersion,
      d.devicePublicKey].foldlM Hasher.updatePrefixed .new
    return .ok ((hasher.update (toLeBytes d.pcpVersion)).update (toLeBytes d.version))

/-- The current length-prefixed hash of length `n`. -/
def hash (xof : Xof) (d : AppAuthenticatedData) (n : ℕ) : Option (Except HashError Bytes) :=
  d.hashHasher.map fun r => r.map fun hasher => hasher.fill xof n

/-- The hasher that `hash_v1` finalizes, behind `assert_eq!(*version, 1)`. -/
def hashV1Hasher (d : AppAuthenticatedData) : Option Hasher :=
  if d.version ≠ 1 then none
  else do
    let hasher ← [d.selfCustodyPublicKey, d.identityCommitment, d.os,
      d.osVersion].foldlM Hasher.updatePrefixed .new
    return (hasher.update (toLeBytes d.pcpVersion)).update (toLeBytes d.version)

/-- v1 length-prefixed hash, without the device key. -/
def hashV1 (xof : Xof) (d : AppAuthenticatedData) (n : ℕ) : Option Bytes :=
  d.hashV1Hasher.map fun hasher => hasher.fill xof n

/-- The hasher that `legacy_hash` finalizes. -/
def legacyHasher (d : AppAuthenticatedData) : Hasher :=
  let hasher := [d.identityCommitment, d.selfCustodyPublicKey, d.osVersion, d.os].foldl
    (fun hasher v => hasher.update (utf8 v)) .new
  if d.pcpVersion ≠ pcpVersionDefault then hasher.update (toLeBytes d.pcpVersion) else hasher

/-- The legacy hash of length `n`: the fields without length prefixes. -/
def legacyHash (xof : Xof) (d : AppAuthenticatedData) (n : ℕ) : Bytes :=
  d.legacyHasher.fill xof n

/-- The hash that `verify` computes under the format that the version selects. -/
def computed (xof : Xof) (d : AppAuthenticatedData) (n : ℕ) :
    Option (Except VerifyError Bytes) :=
  if d.version = VERSION then (d.hash xof n).map fun r => r.mapError .unhashable
  else if (d.version = 0 ∨ d.version = 1) ∧ d.devicePublicKey ≠ "" then
    some (.error .unboundDevicePublicKey)
  else if d.version = 1 then (d.hashV1 xof n).map .ok
  else if d.version = 0 then some (.ok (d.legacyHash xof n))
  else some (.error (.unsupportedVersion d.version))

/-- Checks that `externalHash` matches the data under the format selected by `version`. -/
def verify (xof : Xof) (d : AppAuthenticatedData) (externalHash : Bytes) :
    Option (Except VerifyError Unit) :=
  if externalHash = [] then some (.error .emptyHash)
  else (d.computed xof externalHash.length).map fun r => do
    let computed ← r
    if externalHash ≠ computed then .error .mismatch else .ok ()

end AppAuthenticatedData

/-- First app protocol version that echoes the Orb nonce and may send iPCP. -/
def AnnounceAppId.orbPairingProtocolVersion : UInt64 := 4

/-- Checks `appData` against the QR `hash`, that an iPCP payload only comes from
protocol v4, and that apps from protocol v4 echo the nonce of `orbData`. -/
def AnnounceAppId.verify (xof : Xof) (m : AnnounceAppId) (hash : Bytes)
    (orbData : Option OrbAuthenticatedData) : Option (Except VerifyError Unit) :=
  match m.appData with
  | none => some (.error .missingAppData)
  | some d => (d.verify xof hash).map fun r => do
    r
    if m.encryptedIpcpPayload.isSome ∧ m.protocolVersion < orbPairingProtocolVersion then
      .error .unboundIpcpPayload
    else match orbData with
      | some o =>
        if m.protocolVersion ≥ orbPairingProtocolVersion ∧ m.orbNonce ≠ o.orbNonce then
          .error .orbNonceMismatch
        else .ok ()
      | none => .ok ()

/-! ## What verification hands to the hash function -/

theorem Hasher.foldlM_updatePrefixed (vs : List String) (h : Hasher) :
    vs.foldlM Hasher.updatePrefixed h =
      if ∀ v ∈ vs, Fits v then some ⟨h.input ++ fields 4 (vs.map utf8)⟩ else none := by
  induction vs generalizing h with
  | nil => simp
  | cons v vs ih =>
    rw [List.foldlM_cons, Hasher.updatePrefixed]
    by_cases hv : Fits v
    · rw [if_pos hv, Option.bind_eq_bind, Option.bind_some, ih]
      simp [hv, Hasher.update, lengthPrefixed]
    · simp [hv]

namespace AppAuthenticatedData

/-- The fields behind length prefixes in the v1 format, in their order. -/
def prefixedV1 (d : AppAuthenticatedData) : List String :=
  [d.selfCustodyPublicKey, d.identityCommitment, d.os, d.osVersion]

def prefixedV2 (d : AppAuthenticatedData) : List String := d.prefixedV1 ++ [d.devicePublicKey]

/-- The v1 and v2 formats up to their version trailer. -/
def spelled (d : AppAuthenticatedData) (vs : List String) : Bytes :=
  fields 4 (vs.map utf8) ++ toLeBytes d.pcpVersion

/-- The text that the legacy format hashes. -/
def legacyText (d : AppAuthenticatedData) : String :=
  d.identityCommitment ++ d.selfCustodyPublicKey ++ d.osVersion ++ d.os

/-- The bytes that follow the legacy text. -/
def legacySuffix (d : AppAuthenticatedData) : Bytes :=
  if d.pcpVersion ≠ pcpVersionDefault then toLeBytes d.pcpVersion else []

/-- The bytes that `verify` feeds to BLAKE3, when it gets that far. -/
def fed (d : AppAuthenticatedData) : Option Bytes :=
  if d.version = VERSION then
    match d.hashHasher with
    | some (.ok hasher) => some hasher.input
    | _ => none
  else if (d.version = 0 ∨ d.version = 1) ∧ d.devicePublicKey ≠ "" then none
  else if d.version = 1 then d.hashV1Hasher.map Hasher.input
  else if d.version = 0 then some d.legacyHasher.input
  else none

theorem computed_eq_ok_iff (xof : Xof) (d : AppAuthenticatedData) (n : ℕ) (out : Bytes) :
    d.computed xof n = some (.ok out) ↔
      ∃ x, d.fed = some x ∧ (Hasher.mk x).fill xof n = out := by
  unfold computed fed
  split_ifs with h2 hk h1 h0
  · rcases hh : d.hashHasher with _ | e | hasher <;> simp [hash, hh, Except.map, Except.mapError]
  · simp
  · rcases hh : d.hashV1Hasher with _ | hasher <;> simp [hashV1, hh]
  · simp [legacyHash]
  · simp

theorem hash_eq_ok_iff (xof : Xof) (d : AppAuthenticatedData) (n : ℕ) (out : Bytes) :
    d.hash xof n = some (.ok out) ↔
      d.version = VERSION ∧ ∃ x, d.fed = some x ∧ (Hasher.mk x).fill xof n = out := by
  unfold hash fed
  by_cases hv : d.version = VERSION
  · rcases hh : d.hashHasher with _ | e | hasher <;> simp [hv, Except.map]
  · simp [hashHasher, hv, Except.map]

/-- Verification accepts exactly the non-empty output of what it feeds. -/
theorem verify_eq_ok_iff (xof : Xof) (d : AppAuthenticatedData) (h : Bytes) :
    d.verify xof h = some (.ok ()) ↔
      h ≠ [] ∧ ∃ x, d.fed = some x ∧ (Hasher.mk x).fill xof h.length = h := by
  rw [← computed_eq_ok_iff, verify]
  by_cases hh : h = []
  · simp [hh]
  · rcases hc : d.computed xof h.length with _ | e | out
    · simp [hh]
    · simp [hh, bind, Except.bind]
    · by_cases ho : h = out
      · simp [hh, bind, Except.bind, ← ho]
      · simp [hh, bind, Except.bind, ho, Ne.symm ho]

theorem fed_current (d : AppAuthenticatedData) (hv : d.version = VERSION) (x : Bytes) :
    d.fed = some x ↔ d.devicePublicKey ≠ "" ∧ (∀ v ∈ d.prefixedV2, Fits v) ∧
      d.spelled d.prefixedV2 ++ toLeBytes VERSION = x := by
  have hh : d.hashHasher = if d.devicePublicKey = "" then some (.error .missingDevicePublicKey)
      else if ∀ v ∈ d.prefixedV2, Fits v then
        some (.ok ⟨d.spelled d.prefixedV2 ++ toLeBytes VERSION⟩) else none := by
    simp only [hashHasher, hv, Hasher.foldlM_updatePrefixed]
    split_ifs <;> simp_all [prefixedV2, prefixedV1, Hasher.update, Hasher.new, spelled]
  rw [fed, if_pos hv, hh]
  by_cases hk : d.devicePublicKey = ""
  · simp [hk]
  · rw [if_neg hk]
    by_cases hf : ∀ v ∈ d.prefixedV2, Fits v
    · rw [if_pos hf]
      exact ⟨fun h => ⟨hk, hf, Option.some.inj h⟩, fun h => congrArg some h.2.2⟩
    · rw [if_neg hf]
      simp [hf]

theorem fed_v1 (d : AppAuthenticatedData) (hv : d.version = 1) (x : Bytes) :
    d.fed = some x ↔ d.devicePublicKey = "" ∧ (∀ v ∈ d.prefixedV1, Fits v) ∧
      d.spelled d.prefixedV1 ++ toLeBytes 1 = x := by
  have hh : d.hashV1Hasher = if ∀ v ∈ d.prefixedV1, Fits v then
      some ⟨d.spelled d.prefixedV1 ++ toLeBytes 1⟩ else none := by
    simp only [hashV1Hasher, hv, Hasher.foldlM_updatePrefixed]
    split_ifs <;> simp_all [prefixedV1, Hasher.update, Hasher.new, spelled]
  rw [fed, hh]
  by_cases hk : d.devicePublicKey = ""
  · by_cases hf : ∀ v ∈ d.prefixedV1, Fits v <;> simp [hv, VERSION, hk, hf]
  · simp [hv, VERSION, hk]

theorem legacyHasher_input (d : AppAuthenticatedData) :
    d.legacyHasher.input = utf8 d.legacyText ++ d.legacySuffix := by
  simp only [legacyHasher, legacySuffix, legacyText]
  split_ifs <;> simp [Hasher.update, Hasher.new]

theorem fed_legacy (d : AppAuthenticatedData) (hv : d.version = 0) (x : Bytes) :
    d.fed = some x ↔ d.devicePublicKey = "" ∧ utf8 d.legacyText ++ d.legacySuffix = x := by
  rw [fed, legacyHasher_input]
  by_cases hk : d.devicePublicKey = "" <;> simp [hv, VERSION, hk]

end AppAuthenticatedData

/-- What an accepted announcement has passed: the hash of its data, the iPCP gate
and, against the data of an Orb, the nonce check. -/
theorem AnnounceAppId.verify_eq_ok_iff (xof : Xof) (m : AnnounceAppId) (h : Bytes)
    (orbData : Option OrbAuthenticatedData) :
    m.verify xof h orbData = some (.ok ()) ↔
      ∃ d, m.appData = some d ∧ d.verify xof h = some (.ok ()) ∧
        (m.encryptedIpcpPayload.isSome → orbPairingProtocolVersion ≤ m.protocolVersion) ∧
        ∀ o, orbData = some o → orbPairingProtocolVersion ≤ m.protocolVersion →
          m.orbNonce = o.orbNonce := by
  unfold AnnounceAppId.verify
  rcases m.appData with _ | d
  · simp
  · rcases hd : d.verify xof h with _ | e | u
    · simp [hd]
    · simp [hd, bind, Except.bind]
    · by_cases hp : m.encryptedIpcpPayload.isSome ∧ m.protocolVersion < orbPairingProtocolVersion
      · simp [hd, bind, Except.bind, hp, UInt64.not_le]
      · have hgate : m.encryptedIpcpPayload.isSome →
            orbPairingProtocolVersion ≤ m.protocolVersion :=
          fun hs => UInt64.not_lt.mp fun hlt => hp ⟨hs, hlt⟩
        rcases orbData with _ | o
        · simp [hd, bind, Except.bind, hp]
          exact hgate
        · by_cases ho : m.protocolVersion ≥ orbPairingProtocolVersion ∧ m.orbNonce ≠ o.orbNonce
          · simp [hd, bind, Except.bind, hp, ho]
          · have hnonce : orbPairingProtocolVersion ≤ m.protocolVersion →
                m.orbNonce = o.orbNonce := fun hle => not_not.mp fun hne => ho ⟨hle, hne⟩
            simp [hd, bind, Except.bind, hp, ho]
            exact ⟨hgate, hnonce⟩

end OrbRelay.Common
