import OrbRelay.Library.Json
import OrbRelay.Messages.Announcements

/-!
# What logs show of an app announcement

`Display` and `Debug` write the same JSON. It tells twelve facts about an announcement and
nothing else: not the commitments, keys and tokens in it, nor its nonce.
-/
namespace OrbRelay.Common
open Json

/-- How `json!` writes an optional value. -/
def orNull {α : Type*} (f : α → Value) : Option α → Value
  | none => .null
  | some a => f a

namespace AnnounceAppIdMessage

variable {m m' : AnnounceAppIdMessage} {alternate : Bool}

/-- The members in the order of the source. -/
def facts (m : AnnounceAppIdMessage) : List (String × Value) :=
  [("protocol_version", .number m.protocolVersion.toNat),
    ("heartbeat", .bool m.heartbeat),
    ("is_test", .bool m.isTest),
    ("has_app_data", .bool m.appData.isSome),
    ("has_appointment_metadata", .bool m.appointmentMetadata.isSome),
    ("has_p2p_node_info", .bool m.p2pNodeInfo.isSome),
    ("os", orNull (fun d => .string d.os) m.appData),
    ("os_version", orNull (fun d => .string d.osVersion) m.appData),
    ("pcp_version", orNull (fun d => .number d.pcpVersion.toNat) m.appData),
    ("app_data_version", orNull (fun d => .number d.version.toNat) m.appData),
    ("has_encrypted_ipcp_payload", .bool m.encryptedIpcpPayload.isSome),
    ("has_bypass_age_verification_token", .bool (m.bypassAgeVerificationToken != ""))]

/-- `{}` and `{:?}`, or `{:#}` and `{:#?}` with the alternate flag. `serde_json` keeps the
members of an object sorted. -/
def fmt (m : AnnounceAppIdMessage) (alternate : Bool) : String :=
  String.ofList (object (if alternate then .pretty else .compact) (sorted m.facts))

/-- Announcements of which the logs show the same. -/
structure Alike (m m' : AnnounceAppIdMessage) : Prop where
  protocolVersion : m.protocolVersion = m'.protocolVersion
  heartbeat : m.heartbeat = m'.heartbeat
  isTest : m.isTest = m'.isTest
  appData : m.appData.map (fun d => (d.os, d.osVersion, d.pcpVersion, d.version)) =
    m'.appData.map fun d => (d.os, d.osVersion, d.pcpVersion, d.version)
  appointmentMetadata : m.appointmentMetadata.isSome = m'.appointmentMetadata.isSome
  p2pNodeInfo : m.p2pNodeInfo.isSome = m'.p2pNodeInfo.isSome
  encryptedIpcpPayload : m.encryptedIpcpPayload.isSome = m'.encryptedIpcpPayload.isSome
  bypassAgeVerificationToken :
    m.bypassAgeVerificationToken = "" ↔ m'.bypassAgeVerificationToken = ""

example : (sorted (keyAnnouncement [1]).facts).map Prod.fst =
    ["app_data_version", "has_app_data", "has_appointment_metadata",
      "has_bypass_age_verification_token", "has_encrypted_ipcp_payload", "has_p2p_node_info",
      "heartbeat", "is_test", "os", "os_version", "pcp_version", "protocol_version"] := by decide

theorem facts_keys (m m' : AnnounceAppIdMessage) :
    m.facts.map Prod.fst = m'.facts.map Prod.fst := rfl

theorem appData_eq_iff {d d' : Option AppAuthenticatedData} :
    (d.isSome = d'.isSome ∧ orNull (fun d => .string d.os) d = orNull (fun d => .string d.os) d' ∧
      orNull (fun d => .string d.osVersion) d = orNull (fun d => .string d.osVersion) d' ∧
      orNull (fun d => .number d.pcpVersion.toNat) d =
        orNull (fun d => .number d.pcpVersion.toNat) d' ∧
      orNull (fun d => .number d.version.toNat) d = orNull (fun d => .number d.version.toNat) d') ↔
    d.map (fun d => (d.os, d.osVersion, d.pcpVersion, d.version)) =
      d'.map fun d => (d.os, d.osVersion, d.pcpVersion, d.version) := by
  cases d <;> cases d' <;> simp [orNull, UInt32.toNat_inj]

theorem token_eq_iff {s t : String} : (s != "") = (t != "") ↔ (s = "" ↔ t = "") := by
  rw [Bool.eq_iff_iff]
  simp [not_iff_not]

theorem facts_eq_iff : m.facts = m'.facts ↔ m.Alike m' := by
  simp only [facts, List.cons.injEq, Prod.mk.injEq, true_and, and_true, Value.number.injEq,
    Value.bool.injEq, UInt64.toNat_inj]
  constructor
  · rintro ⟨hp, hh, ht, hd, ham, hn, hos, hosv, hpcp, hv, hi, hb⟩
    exact ⟨hp, hh, ht, appData_eq_iff.mp ⟨hd, hos, hosv, hpcp, hv⟩, ham, hn, hi,
      token_eq_iff.mp hb⟩
  · rintro ⟨hp, hh, ht, hd, ham, hn, hi, hb⟩
    obtain ⟨hd, hos, hosv, hpcp, hv⟩ := appData_eq_iff.mpr hd
    exact ⟨hp, hh, ht, hd, ham, hn, hos, hosv, hpcp, hv, hi, token_eq_iff.mpr hb⟩

/-- Two announcements are written alike exactly if they agree on what the logs show, in
either format: an `os` that contains JSON cannot forge a member. -/
theorem fmt_eq_iff : m.fmt alternate = m'.fmt alternate ↔ m.Alike m' := by
  rw [← facts_eq_iff]
  constructor
  · intro h
    have hsorted := object_injective _ (String.ofList_injective h)
    exact sorted_injective (facts_keys m m') (by simp [facts]) hsorted
  · intro h
    rw [fmt, fmt, h]

/-- Without the flag it is one line. -/
theorem fmt_printable (m : AnnounceAppIdMessage) : ∀ c ∈ (m.fmt false).toList, 32 ≤ c.toNat := by
  rw [fmt, String.toList_ofList]
  exact printable_object _

end AnnounceAppIdMessage
end OrbRelay.Common
