import OrbRelay.Library.Protobuf
import OrbRelay.Messages.AppData

/-!
# Orb data and the signature over it

What the Orb signs with its attestation key. P-256 is a parameter: a predicate that
says which byte strings a signature is good for under a key.
-/
namespace OrbRelay.Common
open Encoding

def orbDataSignatureDomain : Bytes := utf8 "orb-authenticated-data-signature"

/-- Why an Orb announcement is not valid. -/
inductive OrbValidationError where
  | invalidSignature
  | unsupportedVersion
  | invalidOrbNonce
  | requestNonceMismatch
  | unexpectedRequestNonce
deriving DecidableEq, Repr

namespace OrbAuthenticatedData

/-- Current format version for new producers. -/
def VERSION : UInt32 := 1

/-- The fields of the schema in `orb.proto`. -/
def schema (d : OrbAuthenticatedData) : List Protobuf.Field :=
  [⟨1, .number d.version.toNat⟩, ⟨2, .bytes d.ipcpEncryptionPublicKey⟩,
    ⟨3, .bytes d.orbNonce⟩, ⟨4, .bytes d.requestNonce⟩]

def encodeToVec (d : OrbAuthenticatedData) : Bytes := Protobuf.encode d.schema

def signedData (d : OrbAuthenticatedData) : Bytes := orbDataSignatureDomain ++ d.encodeToVec

variable {K S : Type}

/-- Checks the signature of the Orb, the version, the size of the Orb nonce and, in
this order, the challenge of the app: echoed when there is one, absent when not. -/
def verify (accepts : K → Bytes → S → Bool) (d : OrbAuthenticatedData) (attestationKey : K)
    (signature : S) (requestNonce : Option (Vector UInt8 32)) :
    Except OrbValidationError Unit :=
  if ¬accepts attestationKey d.signedData signature then .error .invalidSignature
  else if d.version ≠ VERSION then .error .unsupportedVersion
  else if d.orbNonce.length ≠ 32 then .error .invalidOrbNonce
  else match requestNonce with
    | some nonce =>
      if d.requestNonce ≠ nonce.toList then .error .requestNonceMismatch else .ok ()
    | none =>
      if d.requestNonce ≠ [] then .error .unexpectedRequestNonce else .ok ()

/-- The bytes of a challenge, none when there is no challenge. -/
def challenge : Option (Vector UInt8 32) → Bytes
  | some nonce => nonce.toList
  | none => []

theorem challenge_injective : Function.Injective challenge := by
  intro r s h
  cases r with
  | none =>
    cases s with
    | none => rfl
    | some m => simpa [challenge] using congrArg List.length h
  | some n =>
    cases s with
    | none => simpa [challenge] using congrArg List.length h
    | some m => exact congrArg some (Vector.toList_inj.mp h)

/-- What verification accepts. -/
theorem verify_eq_ok_iff (accepts : K → Bytes → S → Bool) (d : OrbAuthenticatedData) (key : K)
    (signature : S) (r : Option (Vector UInt8 32)) :
    d.verify accepts key signature r = .ok () ↔
      accepts key d.signedData signature = true ∧ d.version = VERSION ∧
        d.orbNonce.length = 32 ∧ d.requestNonce = challenge r := by
  unfold verify
  by_cases hs : accepts key d.signedData signature = true
  · by_cases hv : d.version = VERSION
    · by_cases hn : d.orbNonce.length = 32
      · cases r with
        | none => by_cases hr : d.requestNonce = [] <;> simp [hs, hv, hn, hr, challenge]
        | some n => by_cases hr : d.requestNonce = n.toList <;> simp [hs, hv, hn, hr, challenge]
      · simp [hs, hv, hn]
    · simp [hs, hv]
  · simp [hs]

/-- Which fields were left out can be told from the bytes. -/
theorem encodeToVec_injective : Function.Injective encodeToVec := by
  intro d e h
  have hshape : d.schema.map Protobuf.Field.shape = e.schema.map Protobuf.Field.shape := rfl
  have hsorted : (d.schema.map Protobuf.Field.number).Pairwise (· < ·) := by
    simp [schema]
  have hfields := Protobuf.encode_injective hshape hsorted h
  cases d
  cases e
  simpa [schema, UInt32.toNat_inj] using hfields

theorem signedData_injective : Function.Injective signedData :=
  fun _ _ h => encodeToVec_injective (List.append_cancel_left h)

/-- No key and signature are good for two byte strings. -/
def SignsOnce (accepts : K → Bytes → S → Bool) : Prop :=
  ∀ key signature x y, accepts key x signature = true → accepts key y signature = true → x = y

/-- A signature is good for one message and one challenge. -/
theorem verify_binds (accepts : K → Bytes → S → Bool) (honce : SignsOnce accepts) (key : K)
    (signature : S) (d₁ d₂ : OrbAuthenticatedData) (r₁ r₂ : Option (Vector UInt8 32))
    (h₁ : d₁.verify accepts key signature r₁ = .ok ())
    (h₂ : d₂.verify accepts key signature r₂ = .ok ()) : d₁ = d₂ ∧ r₁ = r₂ := by
  obtain ⟨hs₁, -, -, hr₁⟩ := (verify_eq_ok_iff ..).mp h₁
  obtain ⟨hs₂, -, -, hr₂⟩ := (verify_eq_ok_iff ..).mp h₂
  obtain rfl := signedData_injective (honce key signature _ _ hs₁ hs₂)
  exact ⟨rfl, challenge_injective (hr₁.symm.trans hr₂)⟩

/-- The data of a scan-to-pair announcement. -/
def scanned : OrbAuthenticatedData where
  version := VERSION
  ipcpEncryptionPublicKey := [4, 1]
  orbNonce := List.replicate 32 7
  requestNonce := List.replicate 32 3

/-- A signature that spells out the key and what was signed. -/
def spellsOut (key x signature : Bytes) : Bool := key ++ x = signature

theorem scanned_bound :
    scanned.verify spellsOut [9] ([9] ++ scanned.signedData) (some (.replicate 32 3)) = .ok () ∧
      scanned = scanned ∧ some (Vector.replicate 32 (3 : UInt8)) = some (.replicate 32 3) := by
  have hok : scanned.verify spellsOut [9] ([9] ++ scanned.signedData)
      (some (.replicate 32 3)) = .ok () :=
    (verify_eq_ok_iff ..).mpr ⟨by simp [spellsOut], rfl, rfl, rfl⟩
  have honce : SignsOnce spellsOut := by
    intro key signature x y hx hy
    simp only [spellsOut, decide_eq_true_eq] at hx hy
    exact List.append_cancel_left (hx.trans hy.symm)
  exact ⟨hok, verify_binds spellsOut honce [9] _ _ _ _ _ hok hok⟩

end OrbAuthenticatedData
end OrbRelay.Common
