import OrbRelay.Library.Codec
import OrbRelay.Messages.Binding
import OrbRelay.Messages.OrbData

/-!
# Announcements on the wire

The messages with which an Orb and an app pair, with all their fields, and their
codecs. What a pairing checks is checked on messages that were decoded: of the records
that arrived, those that the schema does not know are gone, and a message that was cut
short may still decode.
-/
namespace OrbRelay.Common
open Encoding Protobuf
open AppAuthenticatedData (streamOf)

/-! ## Messages -/

structure P2pNodeInfo where
  nodeId : String
  directAddresses : List String
  relayUrl : String
deriving DecidableEq, Repr

structure AppointmentMetadata where
  proof : String
  merkleRoot : String
  nullifierHash : String
  signal : UInt64
deriving DecidableEq, Repr

/-- An `AnnounceAppId` with the fields that its verification does not read. -/
structure AnnounceAppIdMessage extends AnnounceAppId where
  heartbeat : Bool
  appointmentMetadata : Option AppointmentMetadata
  bypassAgeVerificationToken : String
  isTest : Bool
  p2pNodeInfo : Option P2pNodeInfo
deriving DecidableEq, Repr

/-- The enumerations are open: any number is kept. -/
structure AnnounceOrbId where
  orbId : String
  modeType : Int32
  hardwareType : Int32
  hasPreflightChecks : Bool
  hasPreflightChecksWithOcclusion : Bool
  selector : Int32
  heartbeat : Bool
  protocolVersion : UInt64
  signupId : String
  signupIdPin : String
  p2pNodeInfo : Option P2pNodeInfo
  orbData : Option OrbAuthenticatedData
  orbDataSignature : Bytes
deriving DecidableEq, Repr

/-! ## Codecs -/

def P2pNodeInfo.codec : Codec P2pNodeInfo :=
  ((Codec.implicit 1 .string).prod
    ((Codec.repeated 2 .string).prod (Codec.implicit 3 .string))).map
    { toFun := fun p => ⟨p.1, p.2.1, p.2.2⟩
      invFun := fun i => (i.nodeId, i.directAddresses, i.relayUrl)
      left_inv := fun _ => rfl
      right_inv := fun _ => rfl }

def AppointmentMetadata.codec : Codec AppointmentMetadata :=
  ((Codec.implicit 1 .string).prod ((Codec.implicit 2 .string).prod
    ((Codec.implicit 3 .string).prod (Codec.implicit 4 Varint.uint64.scalar)))).map
    { toFun := fun p => ⟨p.1, p.2.1, p.2.2.1, p.2.2.2⟩
      invFun := fun m => (m.proof, m.merkleRoot, m.nullifierHash, m.signal)
      left_inv := fun _ => rfl
      right_inv := fun _ => rfl }

def AppAuthenticatedData.codec : Codec AppAuthenticatedData :=
  ((Codec.implicit 1 .string).prod ((Codec.implicit 2 .string).prod
    ((Codec.implicit 3 .string).prod ((Codec.implicit 4 .string).prod
      ((Codec.implicit 5 Varint.uint32.scalar).prod
        ((Codec.implicit 6 Varint.uint32.scalar).prod (Codec.implicit 7 .string))))))).map
    { toFun := fun (key, identity, os, osVersion, pcp, version, device) =>
        ⟨key, identity, os, osVersion, pcp, version, device⟩
      invFun := fun d => (d.selfCustodyPublicKey, d.identityCommitment, d.os, d.osVersion,
        d.pcpVersion, d.version, d.devicePublicKey)
      left_inv := fun _ => rfl
      right_inv := fun _ => rfl }

def OrbAuthenticatedData.codec : Codec OrbAuthenticatedData :=
  ((Codec.implicit 1 Varint.uint32.scalar).prod ((Codec.implicit 2 .bytes).prod
    ((Codec.implicit 3 .bytes).prod (Codec.implicit 4 .bytes)))).map
    { toFun := fun p => ⟨p.1, p.2.1, p.2.2.1, p.2.2.2⟩
      invFun := fun d => (d.version, d.ipcpEncryptionPublicKey, d.orbNonce, d.requestNonce)
      left_inv := fun _ => rfl
      right_inv := fun _ => rfl }

def IpcpHpkePayload.codec : Codec IpcpHpkePayload :=
  ((Codec.implicit 1 .bytes).prod (Codec.implicit 2 .bytes)).map
    { toFun := fun p => ⟨p.1, p.2⟩
      invFun := fun i => (i.enc, i.ciphertext)
      left_inv := fun _ => rfl
      right_inv := fun _ => rfl }

namespace AnnounceAppIdMessage

/-- All fields but the last one, the nonce. -/
abbrev Front := UInt64 × Bool × Option AppAuthenticatedData × Option AppointmentMetadata ×
  String × Bool × Option P2pNodeInfo × Option IpcpHpkePayload

def frontCodec : Codec Front :=
  (Codec.implicit 1 Varint.uint64.scalar).prod ((Codec.implicit 2 Varint.bool.scalar).prod
    ((Codec.message 3 AppAuthenticatedData.codec).prod
      ((Codec.message 4 AppointmentMetadata.codec).prod ((Codec.implicit 5 .string).prod
        ((Codec.implicit 6 Varint.bool.scalar).prod ((Codec.message 7 P2pNodeInfo.codec).prod
          (Codec.message 8 IpcpHpkePayload.codec)))))))

def nonceCodec : Codec Bytes := Codec.implicit 10 .bytes

def equiv : Front × Bytes ≃ AnnounceAppIdMessage where
  toFun := fun ((version, heartbeat, data, appointment, token, test, info, ipcp), nonce) =>
    ⟨⟨version, data, ipcp, nonce⟩, heartbeat, appointment, token, test, info⟩
  invFun m := ((m.protocolVersion, m.heartbeat, m.appData, m.appointmentMetadata,
    m.bypassAgeVerificationToken, m.isTest, m.p2pNodeInfo, m.encryptedIpcpPayload), m.orbNonce)
  left_inv _ := rfl
  right_inv _ := rfl

def codec : Codec AnnounceAppIdMessage := (frontCodec.prod nonceCodec).map equiv

end AnnounceAppIdMessage

def AnnounceOrbId.codec : Codec AnnounceOrbId :=
  ((Codec.implicit 1 .string).prod ((Codec.implicit 2 Varint.int32.scalar).prod
    ((Codec.implicit 3 Varint.int32.scalar).prod ((Codec.implicit 4 Varint.bool.scalar).prod
      ((Codec.implicit 5 Varint.bool.scalar).prod ((Codec.implicit 6 Varint.int32.scalar).prod
        ((Codec.implicit 7 Varint.bool.scalar).prod ((Codec.implicit 8 Varint.uint64.scalar).prod
          ((Codec.implicit 9 .string).prod ((Codec.implicit 10 .string).prod
            ((Codec.message 11 P2pNodeInfo.codec).prod
              ((Codec.message 12 OrbAuthenticatedData.codec).prod
                (Codec.implicit 13 .bytes))))))))))))).map
    { toFun := fun (id, mode, hardware, checks, occlusion, selector, heartbeat, version, signup,
          pin, info, data, signature) =>
        ⟨id, mode, hardware, checks, occlusion, selector, heartbeat, version, signup, pin, info,
          data, signature⟩
      invFun := fun m => (m.orbId, m.modeType, m.hardwareType, m.hasPreflightChecks,
        m.hasPreflightChecksWithOcclusion, m.selector, m.heartbeat, m.protocolVersion,
        m.signupId, m.signupIdPin, m.p2pNodeInfo, m.orbData, m.orbDataSignature)
      left_inv := fun _ => rfl
      right_inv := fun _ => rfl }

/-! ## Foreign records -/

theorem AppAuthenticatedData.unordered : AppAuthenticatedData.codec.Unordered :=
  ((Codec.unordered_of_numbers rfl).prod ((Codec.unordered_of_numbers rfl).prod
    ((Codec.unordered_of_numbers rfl).prod ((Codec.unordered_of_numbers rfl).prod
      ((Codec.unordered_of_numbers rfl).prod ((Codec.unordered_of_numbers rfl).prod
        (Codec.unordered_of_numbers rfl))))))).map _

namespace AnnounceAppIdMessage

/-- Records of fields that the schema does not have, among the fields of an announcement
or of its app data, do not change what is read, and neither does the order of the
fields, nor how their keys, lengths and numbers are spelled. What the unknown records say
is not checked by anything. -/
theorem decode_extended {m : AnnounceAppIdMessage} {d : AppAuthenticatedData} (hs : codec.Sized m)
    (hm : m.appData = some d) {x bs : Bytes} {rs ds : List Record}
    (hx : readRecords Codec.maxDepth x = some rs)
    (hbs : readRecords (Codec.maxDepth - 1) bs = some ds)
    (hdata : rs.filter (fun r => r.number = 3) = [⟨3, .bytes bs⟩])
    (hd : ∀ n ∈ AppAuthenticatedData.codec.numbers, ds.filter (fun r => r.number = n) =
      (AppAuthenticatedData.codec.write d).filter fun r => r.number = n)
    (hother : ∀ n ∈ codec.numbers, n ≠ 3 → rs.filter (fun r => r.number = n) =
      (codec.write m).filter fun r => r.number = n) :
    codec.decode x = some m := by
  have hsp : (frontCodec.prod nonceCodec).Sized (equiv.symm m) := hs
  have hwritten : ∀ r ∈ codec.write m, r.Valid := codec.valid m hs
  have hmem : ⟨3, .bytes (AppAuthenticatedData.codec.encode d)⟩ ∈ codec.write m := by
    have hmsg : ⟨3, .bytes (AppAuthenticatedData.codec.encode d)⟩ ∈
        (Codec.message 3 AppAuthenticatedData.codec).write m.appData := by
      simp [Codec.message, Codec.oneof, Variant.message, hm]
    exact List.mem_append_left _ (List.mem_append_right _ (List.mem_append_right _
      (List.mem_append_left _ hmsg)))
  have hsd : AppAuthenticatedData.codec.Sized d := (hwritten _ hmem).content
  have hread : AppAuthenticatedData.codec.decodeAt (Codec.maxDepth - 1) bs = some d :=
    (AppAuthenticatedData.unordered.decodeAt_eq hbs
      (readRecords_encodeRecords (AppAuthenticatedData.codec.valid d hsd) _) hd).trans
        (Codec.decodeAt_encode hsd _)
  -- each field but the data is read as from the announcement itself
  have hpart {γ : Type} {c : Codec γ} (hc : c.Unordered) (hn : ∀ n ∈ c.numbers, n ∈ codec.numbers ∧
      n ≠ 3) : c.decode x = c.decode (codec.encode m) :=
    hc.decodeAt_eq hx (readRecords_encodeRecords hwritten _)
      fun n h => hother n (hn n h).1 (hn n h).2
  have hall : (frontCodec.prod nonceCodec).decode (codec.encode m) = some (equiv.symm m) :=
    Codec.decode_encode hsp
  obtain ⟨hfront, hnonce⟩ := Codec.decode_prod_iff.mp hall
  obtain ⟨hversion, hfront⟩ := Codec.decode_prod_iff.mp hfront
  obtain ⟨hheartbeat, hfront⟩ := Codec.decode_prod_iff.mp hfront
  obtain ⟨-, hfront⟩ := Codec.decode_prod_iff.mp hfront
  have hdecoded : (frontCodec.prod nonceCodec).decode x = some (equiv.symm m) := by
    refine Codec.decode_prod_iff.mpr ⟨Codec.decode_prod_iff.mpr ⟨?_, Codec.decode_prod_iff.mpr
      ⟨?_, Codec.decode_prod_iff.mpr ⟨?_, ?_⟩⟩⟩, ?_⟩
    · exact (hpart (Codec.unordered_of_numbers rfl) (by decide)).trans hversion
    · exact (hpart (Codec.unordered_of_numbers rfl) (by decide)).trans hheartbeat
    · rw [show (equiv.symm m).1.2.2.1 = some d from hm]
      exact Codec.decode_message hx hdata hread
    · refine (hpart ?_ (by decide)).trans hfront
      exact (Codec.unordered_of_numbers rfl).prod ((Codec.unordered_of_numbers rfl).prod
        ((Codec.unordered_of_numbers rfl).prod ((Codec.unordered_of_numbers rfl).prod
          (Codec.unordered_of_numbers rfl))))
    · exact (hpart (Codec.unordered_of_numbers rfl) (by decide)).trans hnonce
  rw [codec, Codec.decode_map, hdecoded]
  rfl

/-- App data with nothing but versions and a device key. -/
def keyData : AppAuthenticatedData := ⟨"", "", "", "", 2, 2, "k"⟩

/-- A v4 announcement of these data, without iPCP payload. -/
def keyAnnouncement (nonce : Bytes) : AnnounceAppIdMessage :=
  ⟨⟨4, some keyData, none, nonce⟩, false, none, "", false, none⟩

theorem keyAnnouncement_write (nonce : Bytes) : codec.write (keyAnnouncement nonce) =
    [⟨1, .varint 4⟩, ⟨3, .bytes [40, 2, 48, 2, 58, 1, 107]⟩] ++ nonceCodec.write nonce := by
  have hk : utf8 "k" = [107] := by decide
  simp [codec, equiv, frontCodec, Codec.map, Codec.prod, Codec.implicit, Codec.message,
    Codec.oneof, Variant.message, AppAuthenticatedData.codec, Codec.encode, keyAnnouncement,
    keyData, Varint.scalar, Varint.uint64, Varint.uint32, Varint.bool, Scalar.string,
    Record.encode, Record.key, Content.wireType, Content.payload, varint_of_lt, hk]

theorem keyAnnouncement_encode (nonce : Bytes) : codec.encode (keyAnnouncement nonce) =
    [8, 4, 26, 7, 40, 2, 48, 2, 58, 1, 107] ++ nonceCodec.encode nonce := by
  rw [Codec.encode, keyAnnouncement_write, encodeRecords_append]
  simp [Codec.encode, Record.encode, Record.key, Content.wireType, Content.payload, varint_of_lt]

theorem nonceCodec_encode_one : nonceCodec.encode [1] = [82, 1, 1] := by
  simp [Codec.encode, nonceCodec, Codec.implicit, Scalar.bytes, Record.encode, Record.key,
    Content.wireType, Content.payload, varint_of_lt]

/-- The announcement with the removed timestamp and hash, back to front, with a longer
spelling of its version, and with an unknown group in its data. -/
theorem keyAnnouncement_extended :
    codec.decode [0x68, 5, 0x52, 1, 1, 0x4a, 1, 7, 0x1a, 13, 0x43, 0x4b, 8, 1, 0x4c, 0x44, 0x3a, 1,
      107, 0x30, 2, 0x28, 2, 8, 0x84, 0] = some (keyAnnouncement [1]) := by
  have hk : utf8 "k" = [107] := by decide
  have hsized : codec.Sized (keyAnnouncement [1]) := by
    rw [Codec.Sized, keyAnnouncement_encode, nonceCodec_encode_one]
    decide
  have hrecords : readRecords Codec.maxDepth [0x68, 5, 0x52, 1, 1, 0x4a, 1, 7, 0x1a, 13, 0x43, 0x4b,
      8, 1, 0x4c, 0x44, 0x3a, 1, 107, 0x30, 2, 0x28, 2, 8, 0x84, 0] =
      some [⟨13, .varint 5⟩, ⟨10, .bytes [1]⟩, ⟨9, .bytes [7]⟩, ⟨3, .bytes [0x43, 0x4b, 8, 1, 0x4c,
        0x44, 0x3a, 1, 107, 0x30, 2, 0x28, 2]⟩, ⟨1, .varint 4⟩] := by
    decide
  have hinner : readRecords (Codec.maxDepth - 1) [0x43, 0x4b, 8, 1, 0x4c, 0x44, 0x3a, 1, 107, 0x30,
      2, 0x28, 2] = some [⟨8, .group [0x4b, 8, 1, 0x4c, 0x44]⟩, ⟨7, .bytes [107]⟩,
        ⟨6, .varint 2⟩, ⟨5, .varint 2⟩] := by
    decide
  refine decode_extended (d := keyData) hsized rfl hrecords hinner rfl ?_ ?_
  · decide
  · rw [keyAnnouncement_write]
    decide

end AnnounceAppIdMessage

theorem AnnounceOrbId.unordered : codec.Unordered :=
  ((Codec.unordered_of_numbers rfl).prod ((Codec.unordered_of_numbers rfl).prod
    ((Codec.unordered_of_numbers rfl).prod ((Codec.unordered_of_numbers rfl).prod
      ((Codec.unordered_of_numbers rfl).prod ((Codec.unordered_of_numbers rfl).prod
        ((Codec.unordered_of_numbers rfl).prod ((Codec.unordered_of_numbers rfl).prod
          ((Codec.unordered_of_numbers rfl).prod ((Codec.unordered_of_numbers rfl).prod
            ((Codec.unordered_of_numbers rfl).prod ((Codec.unordered_of_numbers rfl).prod
              (Codec.unordered_of_numbers rfl))))))))))))).map _

/-- An Orb's announcement is read as it was written, with the removed expiry or any other
field that the schema does not have, wherever these stand. -/
theorem AnnounceOrbId.decode_foreign {m : AnnounceOrbId} (hs : codec.Sized m) {x : Bytes}
    {rs : List Record} (hx : readRecords Codec.maxDepth x = some rs)
    (h : rs.filter (fun r => r.number ∈ codec.numbers) = codec.write m) :
    codec.decode x = some m := by
  have hread := unordered.decodeAt_eq hx (readRecords_encodeRecords (codec.valid m hs) _)
    fun n hn => ?_
  · exact hread.trans (Codec.decode_encode hs)
  rw [← h, List.filter_filter]
  refine List.filter_congr fun r _ => ?_
  by_cases hr : r.number = n <;> simp [hr, hn]

/-! ## Signed data -/

namespace OrbAuthenticatedData

theorem encode_number (n : ℕ) (v : UInt32) (hn : FieldNumber n) :
    (Codec.implicit n Varint.uint32.scalar hn).encode v = Field.encode ⟨n, .number v.toNat⟩ := by
  by_cases hv : v = 0
  · simp [Codec.encode, Codec.implicit, Varint.scalar, Varint.uint32, Field.encode,
      Value.isDefault, hv]
  · have hne : v.toNat ≠ 0 := fun h => hv (UInt32.toNat_inj.mp h)
    simp [Codec.encode, Codec.implicit, Varint.scalar, Varint.uint32, Field.encode, Field.key,
      Value.isDefault, Value.wireType, Value.payload, Record.encode, Record.key,
      Content.wireType, Content.payload, hv, hne]

theorem encode_bytes (n : ℕ) (bs : Bytes) (hn : FieldNumber n) :
    (Codec.implicit n .bytes hn).encode bs = Field.encode ⟨n, .bytes bs⟩ := by
  by_cases hbs : bs = []
  · simp [Codec.encode, Codec.implicit, Scalar.bytes, Field.encode, Value.isDefault, hbs]
  · simp [Codec.encode, Codec.implicit, Scalar.bytes, Field.encode, Field.key,
      Value.isDefault, Value.wireType, Value.payload, Record.encode, Record.key,
      Content.wireType, Content.payload, hbs]

/-- The codec writes what is signed. -/
theorem codec_encode (d : OrbAuthenticatedData) : codec.encode d = d.encodeToVec := by
  rw [codec, Codec.encode_map, Codec.encode_prod, Codec.encode_prod, Codec.encode_prod,
    encode_number 1 _ (Eq.refl true), encode_bytes 2 _ (Eq.refl true),
    encode_bytes 3 _ (Eq.refl true), encode_bytes 4 _ (Eq.refl true)]
  simp [encodeToVec, schema, Protobuf.encode]

/-- Only a signature that is not accepted is called invalid. -/
theorem verify_ne_invalidSignature_iff {K S : Type} (accepts : K → Bytes → S → Bool)
    (d : OrbAuthenticatedData) (key : K) (signature : S) (q : Option (Vector UInt8 32)) :
    d.verify accepts key signature q ≠ .error .invalidSignature ↔
      accepts key d.signedData signature = true := by
  unfold verify
  by_cases hs : accepts key d.signedData signature = true
  · simp only [hs, not_true_eq_false, if_false, iff_true]
    cases q with
    | none =>
      dsimp only
      split_ifs <;> simp
    | some n =>
      dsimp only
      split_ifs <;> simp
  · simp [hs]

variable {K S : Type} {accepts : K → Bytes → S → Bool}

/-- A signature over the bytes in which data arrive is good for the data that are read
from them exactly when the bytes are those that the app itself would write: with a field
that it does not know, a default spelled out, a number spelled longer, or a field twice or
out of order, the data are refused. -/
theorem signed_bytes_iff (honce : SignsOnce accepts) {x : Bytes} (hlen : x.length < 2 ^ 64)
    (key : K) (signature : S) (hs : accepts key (orbDataSignatureDomain ++ x) signature = true)
    (q : Option (Vector UInt8 32)) :
    (∃ d, codec.decode x = some d ∧
      d.verify accepts key signature q ≠ .error .invalidSignature) ↔ ∃ d, x = codec.encode d := by
  simp only [verify_ne_invalidSignature_iff, signedData, ← codec_encode]
  constructor
  · rintro ⟨d, -, haccepts⟩
    exact ⟨d, List.append_cancel_left (honce key signature _ _ hs haccepts)⟩
  · rintro ⟨d, rfl⟩
    exact ⟨d, Codec.decode_encode hlen, hs⟩

theorem spellsOut_once : SignsOnce spellsOut := by
  intro key signature x y hx hy
  simp only [spellsOut, decide_eq_true_eq] at hx hy
  exact List.append_cancel_left (hx.trans hy.symm)

/-- A version and a fifth field, signed as they were sent. -/
theorem fifth_field_refused :
    codec.decode [8, 1, 40, 1] = some ⟨1, [], [], []⟩ ∧
      OrbAuthenticatedData.verify spellsOut ⟨1, [], [], []⟩ [9]
        ([9] ++ (orbDataSignatureDomain ++ [8, 1, 40, 1])) none = .error .invalidSignature := by
  have hd : codec.decode [8, 1, 40, 1] = some ⟨1, [], [], []⟩ := by decide
  refine ⟨hd, ?_⟩
  by_contra hne
  obtain ⟨d, hx⟩ := (signed_bytes_iff spellsOut_once (by decide) [9] _ (by simp [spellsOut])
    none).mp ⟨_, hd, hne⟩
  -- the bytes would be those of the data that are read from them
  have hsized : codec.Sized d := by
    rw [Codec.Sized, ← hx]
    decide
  rw [hx, Codec.decode_encode hsized, Option.some.injEq] at hd
  rw [hd] at hx
  have hlength : (codec.encode ⟨1, [], [], []⟩).length = 2 := by
    simp [codec_encode, encodeToVec, schema, Protobuf.encode, Field.encode, Field.key,
      Value.isDefault, Value.wireType, Value.payload, varint_of_lt]
  simp [← hx] at hlength

end OrbAuthenticatedData

/-! ## Cut short -/

namespace AnnounceAppIdMessage

variable {m m' : AnnounceAppIdMessage} {x y : Bytes}

/-- A nonce is read whole or not at all. -/
theorem nonce_of_cut {nonce nonce' : Bytes} {rs : List Record} {k : ℕ}
    (h : rs <+: nonceCodec.write nonce) (hne : rs ≠ nonceCodec.write nonce)
    (hr : mergeAll (nonceCodec.merge k) rs nonceCodec.init = some nonce') : nonce' = [] := by
  have hnil : rs = [] := by
    by_cases hn : nonce = []
    · simpa [nonceCodec, Codec.implicit, Scalar.bytes, hn] using h
    · simp only [nonceCodec, Codec.implicit, Scalar.bytes, hn, if_false] at h hne
      rcases List.prefix_cons_iff.mp h with hnil | ⟨t, rfl, ht⟩
      · exact hnil
      · exact absurd (by rw [List.prefix_nil.mp ht]) hne
  subst hnil
  exact (Option.some.inj hr).symm

/-- An announcement that was cut short, and still decodes, has lost the nonce, and either
kept its protocol version or lost its data. -/
theorem decode_truncated (hs : codec.Sized m) (hx : codec.encode m = x ++ y) (hy : y ≠ [])
    (hd : codec.decode x = some m') :
    m'.orbNonce = [] ∧ (m'.protocolVersion = m.protocolVersion ∨ m'.appData = none) := by
  rw [codec, Codec.decode_map] at hd
  obtain ⟨q, hq, rfl⟩ := Option.map_eq_some_iff.mp hd
  have hsp : (frontCodec.prod nonceCodec).Sized (equiv.symm m) := hs
  have hfront := (Codec.decode_prod_iff.mp hq).1
  rcases Codec.decode_of_prefix_prod hsp hx hq with
    ⟨hnonce, z, hz⟩ | ⟨hfull, rs, hrs, rfl, hnonce⟩
  · refine ⟨hnonce, ?_⟩
    rcases Codec.decode_of_prefix_prod hsp.fst hz hfront with ⟨hrest, -⟩ | ⟨hversion, -⟩
    · exact .inr (congrArg (fun f => f.2.1) hrest)
    · exact .inl hversion
  · have hcut : rs ≠ nonceCodec.write (equiv.symm m).2 := by
      rintro rfl
      have hwhole : (frontCodec.prod nonceCodec).encode (equiv.symm m) =
          frontCodec.encode (equiv.symm m).1 ++ nonceCodec.encode (equiv.symm m).2 :=
        Codec.encode_prod ..
      exact hy (List.self_eq_append_right.mp (hwhole.symm.trans hx))
    exact ⟨nonce_of_cut hrs hcut hnonce, .inl (congrArg (fun f => f.1) hfull)⟩

/-- An Orb that drew a nonce accepts no announcement of an app from protocol v4 that was
cut short on its way. -/
theorem truncated_not_verified (hs : codec.Sized m) (hx : codec.encode m = x ++ y) (hy : y ≠ [])
    (hd : codec.decode x = some m')
    (hv : AnnounceAppId.orbPairingProtocolVersion ≤ m.protocolVersion) (xof : Xof) (hash : Bytes)
    (o : OrbAuthenticatedData) (ho : o.orbNonce ≠ []) :
    m'.toAnnounceAppId.verify xof hash (some o) ≠ some (.ok ()) := by
  rw [ne_eq, AnnounceAppId.verify_eq_ok_iff]
  rintro ⟨d, hdata, -, -, hecho⟩
  obtain ⟨hnonce, hversion | hlost⟩ := decode_truncated hs hx hy hd
  · exact ho ((hecho o rfl (hversion ▸ hv)).symm.trans hnonce)
  · rw [hlost] at hdata
    cases hdata

/-- The first 16 output bytes for `keyData`. -/
def keyDigest : Bytes :=
  [249, 143, 35, 6, 232, 209, 62, 18, 245, 18, 169, 177, 9, 60, 187, 61]

/-- Without its last three bytes the announcement has no nonce, and is good for an Orb
only that sent none. -/
theorem keyAnnouncement_truncated :
    (keyAnnouncement []).toAnnounceAppId.verify (streamOf keyDigest) keyDigest none =
        some (.ok ()) ∧
      (keyAnnouncement []).toAnnounceAppId.verify (streamOf keyDigest) keyDigest
        (some (⟨1, [], [1], []⟩)) ≠ some (.ok ()) := by
  have hsized : codec.Sized (keyAnnouncement [1]) := by
    rw [Codec.Sized, keyAnnouncement_encode, nonceCodec_encode_one]
    decide
  have hcut : codec.encode (keyAnnouncement [1]) =
      codec.encode (keyAnnouncement []) ++ [82, 1, 1] := by
    rw [keyAnnouncement_encode, keyAnnouncement_encode, nonceCodec_encode_one]
    rfl
  have hd : codec.decode (codec.encode (keyAnnouncement [])) = some (keyAnnouncement []) := by
    refine Codec.decode_encode (lt_of_le_of_lt ?_ hsized)
    rw [hcut, List.length_append]
    exact Nat.le_add_right _ _
  exact ⟨by decide, truncated_not_verified hsized hcut (by simp) hd (by decide) _ _ _ (by simp)⟩

end AnnounceAppIdMessage

end OrbRelay.Common
