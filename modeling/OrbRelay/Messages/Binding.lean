import OrbRelay.Messages.AppData

/-!
# What an accepted hash says about the app data

Two accepted data are bound by a hash when they are the same, or BLAKE3 gives
one output for the two different byte strings it was fed. The prefixed formats
bind; the legacy format shares byte strings with itself and with them. An iPCP
announcement is also bound to the session of one Orb, by the nonce it echoes.
-/
namespace OrbRelay.Common
open Encoding
namespace AppAuthenticatedData

theorem ext_of_prefixedV2 {d e : AppAuthenticatedData} (hvs : d.prefixedV2 = e.prefixedV2)
    (hpcp : d.pcpVersion = e.pcpVersion) (hv : d.version = e.version) : d = e := by
  cases d
  cases e
  simp_all [prefixedV2, prefixedV1]

theorem spelled_injective {d e : AppAuthenticatedData} {vs ws : List String}
    (hlen : vs.length = ws.length) (hvs : ∀ v ∈ vs, Fits v) (hws : ∀ w ∈ ws, Fits w)
    (h : d.spelled vs = e.spelled ws) : vs = ws ∧ d.pcpVersion = e.pcpVersion := by
  have hfits (us : List String) (hus : ∀ u ∈ us, Fits u) :
      ∀ f ∈ us.map utf8, f.length < 256 ^ 4 := by
    intro f hf
    obtain ⟨u, hu, rfl⟩ := List.mem_map.mp hf
    exact hus u hu
  obtain ⟨hfields, hpcp⟩ := fields_append_injective (by simpa using hlen)
    (hfits vs hvs) (hfits ws hws) h
  exact ⟨List.map_injective_iff.mpr utf8_injective hfields, toLeBytes_injective hpcp⟩

/-- The four-byte trailers of two byte strings can be compared on their own. -/
theorem append_toLeBytes_inj {x y : Bytes} {n m : UInt32} :
    x ++ toLeBytes n = y ++ toLeBytes m ↔ x = y ∧ n = m := by
  refine ⟨fun h => ?_, fun ⟨hx, hn⟩ => hx ▸ hn ▸ rfl⟩
  obtain ⟨hx, hn⟩ := List.append_inj' h (by simp)
  exact ⟨hx, toLeBytes_injective hn⟩

/-- The prefixed formats have one reading, within and across versions. -/
theorem fed_injective {d e : AppAuthenticatedData} {x : Bytes}
    (hd : d.version = 1 ∨ d.version = VERSION) (he : e.version = 1 ∨ e.version = VERSION)
    (hdx : d.fed = some x) (hex : e.fed = some x) : d = e := by
  rcases hd with hd | hd <;> rcases he with he | he
  · obtain ⟨hdk, hdf, hdx⟩ := (fed_v1 d hd x).mp hdx
    obtain ⟨hek, hef, hex⟩ := (fed_v1 e he x).mp hex
    have hlen : d.prefixedV1.length = e.prefixedV1.length := rfl
    obtain ⟨hvs, hpcp⟩ := spelled_injective hlen hdf hef
      (append_toLeBytes_inj.mp (hdx.trans hex.symm)).1
    exact ext_of_prefixedV2 (by rw [prefixedV2, prefixedV2, hvs, hdk, hek]) hpcp (hd.trans he.symm)
  · obtain ⟨-, -, hdx⟩ := (fed_v1 d hd x).mp hdx
    obtain ⟨-, -, hex⟩ := (fed_current e he x).mp hex
    exact absurd (append_toLeBytes_inj.mp (hdx.trans hex.symm)).2 (by decide)
  · obtain ⟨-, -, hdx⟩ := (fed_current d hd x).mp hdx
    obtain ⟨-, -, hex⟩ := (fed_v1 e he x).mp hex
    exact absurd (append_toLeBytes_inj.mp (hdx.trans hex.symm)).2 (by decide)
  · obtain ⟨-, hdf, hdx⟩ := (fed_current d hd x).mp hdx
    obtain ⟨-, hef, hex⟩ := (fed_current e he x).mp hex
    have hlen : d.prefixedV2.length = e.prefixedV2.length := rfl
    obtain ⟨hvs, hpcp⟩ := spelled_injective hlen hdf hef
      (append_toLeBytes_inj.mp (hdx.trans hex.symm)).1
    exact ext_of_prefixedV2 hvs hpcp (hd.trans he.symm)

/-- Two different byte strings were fed, and their outputs of `n` bytes agree. -/
def Collide (xof : Xof) (n : ℕ) (d e : AppAuthenticatedData) : Prop :=
  ∃ x y, d.fed = some x ∧ e.fed = some y ∧ x ≠ y ∧
    (Hasher.mk x).fill xof n = (Hasher.mk y).fill xof n

/-- The data are the same, or the hash function collides on them. -/
def Bound (xof : Xof) (n : ℕ) (d e : AppAuthenticatedData) : Prop :=
  d = e ∨ Collide xof n d e

variable {xof : Xof} {h : Bytes} {d e : AppAuthenticatedData}

/-- Accepted data collide as soon as different byte strings were fed for them. -/
theorem collide_iff (hd : d.verify xof h = some (.ok ())) (he : e.verify xof h = some (.ok ())) :
    Collide xof h.length d e ↔ d.fed ≠ e.fed := by
  obtain ⟨-, x, hx, hxo⟩ := (verify_eq_ok_iff xof d h).mp hd
  obtain ⟨-, y, hy, hyo⟩ := (verify_eq_ok_iff xof e h).mp he
  rw [hx, hy]
  constructor
  · rintro ⟨x', y', hx', hy', hne, -⟩
    rw [hx] at hx'
    rw [hy] at hy'
    exact fun heq => hne (Option.some.inj (hx'.symm.trans (heq.trans hy')))
  · intro hne
    exact ⟨x, y, hx, hy, fun heq => hne (congrArg some heq), hxo.trans hyo.symm⟩

theorem bound_iff (hd : d.verify xof h = some (.ok ())) (he : e.verify xof h = some (.ok ())) :
    Bound xof h.length d e ↔ (d.fed = e.fed → d = e) := by
  rw [Bound, collide_iff hd he, or_comm, ← imp_iff_not_or]

/-- Accepted v1 and v2 data feed the same bytes only when they agree on every
field, so one hash accepts two of them only through a collision. -/
theorem versioned_formats_bind (xof : Xof) (h : Bytes) (d e : AppAuthenticatedData)
    (hvd : d.version = 1 ∨ d.version = VERSION) (hve : e.version = 1 ∨ e.version = VERSION)
    (hd : d.verify xof h = some (.ok ())) (he : e.verify xof h = some (.ok ())) :
    (d.fed = e.fed → d = e) ∧ Bound xof h.length d e := by
  have hinj : d.fed = e.fed → d = e := by
    intro heq
    obtain ⟨-, x, hx, -⟩ := (verify_eq_ok_iff xof d h).mp hd
    exact fed_injective hvd hve hx (heq ▸ hx)
  exact ⟨hinj, (bound_iff hd he).mpr hinj⟩

/-- The data of a current app, with a given PCP version. -/
def currentData (pcpVersion : UInt32) : AppAuthenticatedData where
  selfCustodyPublicKey := "pk_abc123"
  identityCommitment := "ic_def456"
  os := "iOS"
  osVersion := "18.0"
  pcpVersion := pcpVersion
  version := VERSION
  devicePublicKey := "dpk_ghi789"

/-- The first 16 output bytes for `currentData 2`. -/
def currentDigest : Bytes :=
  [237, 195, 29, 204, 161, 153, 194, 233, 82, 69, 254, 109, 136, 60, 141, 162]

/-- An output stream that starts with the given bytes. -/
def streamOf (out : Bytes) : Xof := fun _ i => out.getD i 0

/-- Two data whose hashes of one byte are the same. -/
theorem currentData_bound :
    ((currentData 2).fed = (currentData 166).fed → currentData 2 = currentData 166) ∧
      Bound (streamOf [237]) 1 (currentData 2) (currentData 166) :=
  versioned_formats_bind (streamOf [237]) [237] (currentData 2) (currentData 166) (.inr rfl)
    (.inr rfl) (by decide) (by decide)

/-! ## The current format against the legacy format -/

/-- Every four-byte number that the current format writes before its trailer. -/
def numbers (d : AppAuthenticatedData) : List Bytes :=
  d.prefixedV2.map (fun v => littleEndian 4 (utf8 v).length) ++ [toLeBytes d.pcpVersion]

theorem isUtf8_fields (vs : List String) (y : Bytes) :
    IsUtf8 (fields 4 (vs.map utf8) ++ y) ↔
      (∀ v ∈ vs, IsUtf8 (littleEndian 4 (utf8 v).length)) ∧ IsUtf8 y := by
  induction vs with
  | nil => simp
  | cons v vs ih =>
    rw [List.map_cons, fields_cons, List.append_assoc,
      isUtf8_lengthPrefixed_append (isUtf8_utf8 v), ih]
    simp only [List.mem_cons, forall_eq_or_imp, and_assoc]

/-- The current format is text when all its numbers are: its fields and its
trailer are text already. -/
theorem isUtf8_current_iff (d : AppAuthenticatedData) :
    IsUtf8 (d.spelled d.prefixedV2 ++ toLeBytes VERSION) ↔ ∀ p ∈ d.numbers, IsUtf8 p := by
  have htrailer : IsUtf8 (toLeBytes VERSION) := by decide
  have hpcp : IsUtf8 (toLeBytes d.pcpVersion ++ toLeBytes VERSION) ↔
      IsUtf8 (toLeBytes d.pcpVersion) := by
    refine ⟨fun h => ?_, fun h => h.append htrailer⟩
    exact htrailer.of_append_text (z := []) (by decide) (by simpa using h)
  rw [spelled, List.append_assoc, isUtf8_fields, hpcp]
  simp [numbers, or_imp, forall_and]

/-- A legacy byte string ends in a given trailer either because its text does or
because the trailer is its PCP version. -/
theorem legacy_eq_append_iff (d : AppAuthenticatedData) (y : Bytes) (n : UInt32) :
    utf8 d.legacyText ++ d.legacySuffix = y ++ toLeBytes n ↔
      d.pcpVersion = pcpVersionDefault ∧ utf8 d.legacyText = y ++ toLeBytes n ∨
        d.pcpVersion ≠ pcpVersionDefault ∧ d.pcpVersion = n ∧ utf8 d.legacyText = y := by
  by_cases hp : d.pcpVersion = pcpVersionDefault
  · simp [legacySuffix, hp]
  · simp [legacySuffix, hp, append_toLeBytes_inj, and_comm]

/-- The legacy data whose whole text is the given one. -/
def ofLegacyText (s : String) : AppAuthenticatedData where
  selfCustodyPublicKey := ""
  identityCommitment := s
  os := ""
  osVersion := ""
  pcpVersion := pcpVersionDefault
  version := 0
  devicePublicKey := ""

theorem ofLegacyText_fed (s : String) : (ofLegacyText s).fed = some (utf8 s) := by
  refine (fed_legacy _ rfl _).mpr ⟨rfl, ?_⟩
  simp [ofLegacyText, legacyText, legacySuffix]

/-- Which byte strings of the current format a legacy datum can spell: those
that are text throughout. A PCP version in their place would be the default. -/
theorem exists_legacy_input_iff (d : AppAuthenticatedData) :
    (∃ b : AppAuthenticatedData, b.version = 0 ∧
        d.spelled d.prefixedV2 ++ toLeBytes VERSION = b.legacyHasher.input) ↔
      ∀ p ∈ d.numbers, IsUtf8 p := by
  rw [← isUtf8_current_iff]
  constructor
  · rintro ⟨b, -, hb⟩
    rw [legacyHasher_input, eq_comm, legacy_eq_append_iff] at hb
    rcases hb with ⟨-, htext⟩ | ⟨hne, hv, -⟩
    · exact htext ▸ isUtf8_utf8 _
    · exact absurd hv hne
  · intro htext
    refine ⟨ofLegacyText htext.text, rfl, ?_⟩
    have hfed := ofLegacyText_fed htext.text
    rw [htext.utf8_text] at hfed
    rw [legacyHasher_input]
    exact ((fed_legacy _ rfl _).mp hfed).2.symm

/-- A current hash is out of reach of legacy data exactly when one of the length
prefixes of its data, or their PCP version, is no UTF-8 text. -/
theorem no_legacy_downgrade_iff (xof : Xof) (d : AppAuthenticatedData) (n : ℕ) (h : Bytes)
    (hn : 1 ≤ n) (hh : d.hash xof n = some (.ok h)) :
    ((∀ b : AppAuthenticatedData, b.version = 0 → b.verify xof h = some (.ok ()) →
        Collide xof n d b) ↔ ∃ p ∈ d.numbers, ¬ IsUtf8 p) ∧
      ((∀ b : AppAuthenticatedData, b.version = 0 → d.fed ≠ some b.legacyHasher.input) ↔
        ∃ p ∈ d.numbers, ¬ IsUtf8 p) := by
  obtain ⟨hv, x, hx, hout⟩ := (hash_eq_ok_iff xof d n h).mp hh
  have hlen : h.length = n := by rw [← hout, Hasher.fill_length]
  have hne : h ≠ [] := by
    rintro rfl
    simp at hlen
    omega
  have hd : d.verify xof h = some (.ok ()) :=
    (verify_eq_ok_iff xof d h).mpr ⟨hne, x, hx, hlen ▸ hout⟩
  have hspell := ((fed_current d hv x).mp hx).2.2
  have hinput : (∀ b : AppAuthenticatedData, b.version = 0 →
      d.fed ≠ some b.legacyHasher.input) ↔ ∃ p ∈ d.numbers, ¬ IsUtf8 p := by
    rw [hx, ← hspell]
    simpa using not_congr (exists_legacy_input_iff d)
  refine ⟨?_, hinput⟩
  rw [← hinput]
  constructor
  · intro hall b hb hfed
    have htext : IsUtf8 x := by
      rw [← hspell, isUtf8_current_iff, ← exists_legacy_input_iff]
      exact ⟨b, hb, hspell.trans (Option.some.inj (hx.symm.trans hfed))⟩
    have hfed' : (ofLegacyText htext.text).fed = some x := by
      rw [ofLegacyText_fed, htext.utf8_text]
    have hb' : (ofLegacyText htext.text).verify xof h = some (.ok ()) :=
      (verify_eq_ok_iff xof _ h).mpr ⟨hne, x, hfed', hlen ▸ hout⟩
    exact (collide_iff hd hb').mp (hlen ▸ hall _ rfl hb') (hx.trans hfed'.symm)
  · intro hall b hb hacc
    rw [← hlen, collide_iff hd hacc]
    obtain ⟨-, y, hy, -⟩ := (verify_eq_ok_iff xof b h).mp hacc
    have hinp := ((fed_legacy b hb y).mp hy).2
    rw [← legacyHasher_input] at hinp
    rw [hy, ← hinp]
    exact hall b hb

/-- A PCP version of 200 keeps legacy data away from the hash. -/
theorem currentData_not_downgraded :
    ((∀ b : AppAuthenticatedData, b.version = 0 →
        b.verify (streamOf [236, 142]) [236, 142] = some (.ok ()) →
          Collide (streamOf [236, 142]) 2 (currentData 200) b) ↔
        ∃ p ∈ (currentData 200).numbers, ¬ IsUtf8 p) ∧
      ((∀ b : AppAuthenticatedData, b.version = 0 →
        (currentData 200).fed ≠ some b.legacyHasher.input) ↔
          ∃ p ∈ (currentData 200).numbers, ¬ IsUtf8 p) :=
  no_legacy_downgrade_iff (streamOf [236, 142]) (currentData 200) 2 [236, 142]
    (by decide) (by decide)

/-- The bytes that `hash` feeds for `currentData 2`, read as one text. -/
def currentText : String :=
  "\x09\x00\x00\x00pk_abc123\x09\x00\x00\x00ic_def456\x03\x00\x00\x00iOS\x04\x00\x00\x0018.0\x0a\x00\x00\x00dpk_ghi789\x02\x00\x00\x00\x02\x00\x00\x00"

/-- A current hash that legacy data with the one field `currentText` satisfies,
on the same bytes. -/
theorem current_hash_downgraded :
    (currentData 2).hash (streamOf currentDigest) 16 = some (.ok currentDigest) ∧
      (ofLegacyText currentText).verify (streamOf currentDigest) currentDigest = some (.ok ()) ∧
      (currentData 2).fed = some (ofLegacyText currentText).legacyHasher.input ∧
      ¬ Collide (streamOf currentDigest) 16 (currentData 2) (ofLegacyText currentText) := by
  refine ⟨by decide, by decide, by decide, ?_⟩
  have hfed : (currentData 2).fed = (ofLegacyText currentText).fed := by decide
  rintro ⟨x, y, hx, hy, hne, -⟩
  exact hne (Option.some.inj (hx.symm.trans (hfed.trans hy)))

/-! ## Announcements with an iPCP payload -/

/-- `d` is in the legacy format and spells the bytes of the different datum `e`:
the texts run together alike, or the text of `d` swallows a number that `e`
writes behind its own. -/
def LegacyAlias (d e : AppAuthenticatedData) : Prop :=
  d.version = 0 ∧ d ≠ e ∧
    (e.version = 0 ∧ (d.pcpVersion = e.pcpVersion ∧ d.legacyText = e.legacyText ∨
        d.pcpVersion = pcpVersionDefault ∧ e.pcpVersion ≠ pcpVersionDefault ∧
          utf8 d.legacyText = utf8 e.legacyText ++ toLeBytes e.pcpVersion) ∨
      e.version = 1 ∧ (d.pcpVersion = 1 ∧ utf8 d.legacyText = e.spelled e.prefixedV1 ∨
        d.pcpVersion = pcpVersionDefault ∧
          utf8 d.legacyText = e.spelled e.prefixedV1 ++ toLeBytes 1) ∨
      e.version = VERSION ∧ d.pcpVersion = pcpVersionDefault ∧
        utf8 d.legacyText = e.spelled e.prefixedV2 ++ toLeBytes VERSION)

theorem version_of_fed {d : AppAuthenticatedData} {x : Bytes} (hx : d.fed = some x) :
    d.version = 0 ∨ d.version = 1 ∨ d.version = VERSION := by
  unfold fed at hx
  split_ifs at hx <;> simp_all

/-- Two legacy data feed the same bytes when their texts agree, up to a number
that one of the texts ends in. -/
theorem legacy_eq_legacy_iff (d e : AppAuthenticatedData) :
    utf8 d.legacyText ++ d.legacySuffix = utf8 e.legacyText ++ e.legacySuffix ↔
      d.pcpVersion = e.pcpVersion ∧ d.legacyText = e.legacyText ∨
      (d.pcpVersion = pcpVersionDefault ∧ e.pcpVersion ≠ pcpVersionDefault ∧
        utf8 d.legacyText = utf8 e.legacyText ++ toLeBytes e.pcpVersion) ∨
      (e.pcpVersion = pcpVersionDefault ∧ d.pcpVersion ≠ pcpVersionDefault ∧
        utf8 e.legacyText = utf8 d.legacyText ++ toLeBytes d.pcpVersion) := by
  by_cases he : e.pcpVersion = pcpVersionDefault
  · by_cases hd : d.pcpVersion = pcpVersionDefault
    · simp [legacySuffix, hd, he, utf8_injective.eq_iff]
    · simp [legacySuffix, hd, he, eq_comm]
  · have hs : e.legacySuffix = toLeBytes e.pcpVersion := by simp [legacySuffix, he]
    rw [hs, legacy_eq_append_iff]
    simp only [he, utf8_injective.eq_iff, false_and, or_false, not_false_eq_true, ne_eq, true_and]
    constructor
    · rintro (⟨hd, htext⟩ | ⟨-, hpcp, htext⟩)
      · exact .inr ⟨hd, htext⟩
      · exact .inl ⟨hpcp, htext⟩
    · rintro (⟨hpcp, htext⟩ | ⟨hd, htext⟩)
      · exact .inr ⟨hpcp ▸ he, hpcp, htext⟩
      · exact .inl ⟨hd, htext⟩

section LegacyAlias

variable {d e : AppAuthenticatedData}

theorem not_legacyAlias (hd : d.version ≠ 0) : ¬ LegacyAlias d e :=
  fun h => hd h.1

theorem legacyAlias_legacy_iff (hd : d.version = 0) (he : e.version = 0) :
    LegacyAlias d e ↔ d ≠ e ∧ (d.pcpVersion = e.pcpVersion ∧ d.legacyText = e.legacyText ∨
      d.pcpVersion = pcpVersionDefault ∧ e.pcpVersion ≠ pcpVersionDefault ∧
        utf8 d.legacyText = utf8 e.legacyText ++ toLeBytes e.pcpVersion) := by
  simp [LegacyAlias, hd, he, VERSION]

theorem legacyAlias_v1_iff (hd : d.version = 0) (he : e.version = 1) :
    LegacyAlias d e ↔ d ≠ e ∧ (d.pcpVersion = 1 ∧ utf8 d.legacyText = e.spelled e.prefixedV1 ∨
      d.pcpVersion = pcpVersionDefault ∧
        utf8 d.legacyText = e.spelled e.prefixedV1 ++ toLeBytes 1) := by
  simp [LegacyAlias, hd, he, VERSION]

theorem legacyAlias_current_iff (hd : d.version = 0) (he : e.version = VERSION) :
    LegacyAlias d e ↔ d ≠ e ∧ d.pcpVersion = pcpVersionDefault ∧
      utf8 d.legacyText = e.spelled e.prefixedV2 ++ toLeBytes VERSION := by
  simp [LegacyAlias, hd, he, VERSION]

/-- Different accepted data, the first one legacy, feed the same bytes exactly when
one is an alias of the other. -/
theorem legacyAlias_of_legacy {x y : Bytes} (hd : d.version = 0) (hdx : d.fed = some x)
    (hey : e.fed = some y) : x = y ∧ d ≠ e ↔ LegacyAlias d e ∨ LegacyAlias e d := by
  obtain ⟨-, rfl⟩ := (fed_legacy d hd x).mp hdx
  rcases version_of_fed hey with he | he | he
  · obtain ⟨-, rfl⟩ := (fed_legacy e he y).mp hey
    rw [legacy_eq_legacy_iff, legacyAlias_legacy_iff hd he, legacyAlias_legacy_iff he hd]
    constructor
    · rintro ⟨hsame | hlong | hlong, hne⟩
      · exact .inl ⟨hne, .inl hsame⟩
      · exact .inl ⟨hne, .inr hlong⟩
      · exact .inr ⟨hne.symm, .inr hlong⟩
    · rintro (⟨hne, hsame | hlong⟩ | ⟨hne, hsame | hlong⟩)
      · exact ⟨.inl hsame, hne⟩
      · exact ⟨.inr (.inl hlong), hne⟩
      · exact ⟨.inl ⟨hsame.1.symm, hsame.2.symm⟩, hne.symm⟩
      · exact ⟨.inr (.inr hlong), hne.symm⟩
  · obtain ⟨-, -, rfl⟩ := (fed_v1 e he y).mp hey
    have hswap : ¬ LegacyAlias e d := not_legacyAlias (by rw [he]; decide)
    rw [legacy_eq_append_iff, legacyAlias_v1_iff hd he, or_iff_left hswap]
    constructor
    · rintro ⟨hlong | ⟨-, hpcp, htext⟩, hne⟩
      · exact ⟨hne, .inr hlong⟩
      · exact ⟨hne, .inl ⟨hpcp, htext⟩⟩
    · rintro ⟨hne, ⟨hpcp, htext⟩ | hlong⟩
      · have hdefault : d.pcpVersion ≠ pcpVersionDefault := by
          rw [hpcp]
          decide
        exact ⟨.inr ⟨hdefault, hpcp, htext⟩, hne⟩
      · exact ⟨.inl hlong, hne⟩
  · obtain ⟨-, -, rfl⟩ := (fed_current e he y).mp hey
    have hswap : ¬ LegacyAlias e d := not_legacyAlias (by rw [he]; decide)
    rw [legacy_eq_append_iff, legacyAlias_current_iff hd he, or_iff_left hswap]
    constructor
    · rintro ⟨hlong | ⟨hdefault, hpcp, -⟩, hne⟩
      · exact ⟨hne, hlong⟩
      · exact absurd hpcp hdefault
    · rintro ⟨hne, hlong⟩
      exact ⟨.inl hlong, hne⟩

end LegacyAlias

end AppAuthenticatedData

open AppAuthenticatedData

/-- One hash binds the data of two accepted announcements exactly when neither is
a legacy alias of the other. The iPCP gate looks at the protocol version only, so
an iPCP payload in both changes nothing. -/
theorem ipcp_binds_app_data_iff (xof : Xof) (h : Bytes) (m₁ m₂ : AnnounceAppId)
    (o₁ o₂ : Option OrbAuthenticatedData) (hv₁ : m₁.verify xof h o₁ = some (.ok ()))
    (hv₂ : m₂.verify xof h o₂ = some (.ok ())) :
    ∃ d₁ d₂, m₁.appData = some d₁ ∧ m₂.appData = some d₂ ∧
      (Bound xof h.length d₁ d₂ ↔ ¬ LegacyAlias d₁ d₂ ∧ ¬ LegacyAlias d₂ d₁) := by
  obtain ⟨d₁, hd₁, hok₁, -⟩ := (AnnounceAppId.verify_eq_ok_iff xof m₁ h o₁).mp hv₁
  obtain ⟨d₂, hd₂, hok₂, -⟩ := (AnnounceAppId.verify_eq_ok_iff xof m₂ h o₂).mp hv₂
  refine ⟨d₁, d₂, hd₁, hd₂, ?_⟩
  obtain ⟨-, x, hx, -⟩ := (verify_eq_ok_iff xof d₁ h).mp hok₁
  obtain ⟨-, y, hy, -⟩ := (verify_eq_ok_iff xof d₂ h).mp hok₂
  have hbound : Bound xof h.length d₁ d₂ ↔ ¬ (x = y ∧ d₁ ≠ d₂) := by
    rw [bound_iff hok₁ hok₂, hx, hy, Option.some.injEq, not_and, not_not]
  rw [hbound, ← not_or]
  by_cases h₁ : d₁.version = 0
  · rw [legacyAlias_of_legacy h₁ hx hy]
  by_cases h₂ : d₂.version = 0
  · rw [or_comm, ← legacyAlias_of_legacy h₂ hy hx, eq_comm, ne_comm]
  · have hinj : x = y → d₁ = d₂ := fun hxy =>
      fed_injective ((version_of_fed hx).resolve_left h₁) ((version_of_fed hy).resolve_left h₂)
        hx (hxy ▸ hy)
    simp [LegacyAlias, h₁, h₂]
    exact hinj

/-- Legacy data with the given commitment and key. -/
def legacyData (identityCommitment selfCustodyPublicKey : String) : AppAuthenticatedData where
  selfCustodyPublicKey := selfCustodyPublicKey
  identityCommitment := identityCommitment
  os := "iOS"
  osVersion := "18.0"
  pcpVersion := 2
  version := 0
  devicePublicKey := ""

/-- An announcement of the data in protocol v4, with an iPCP payload. -/
def announcing (d : AppAuthenticatedData) : AnnounceAppId where
  protocolVersion := 4
  appData := some d
  encryptedIpcpPayload := some ⟨[], []⟩
  orbNonce := []

/-- The first 16 output bytes for the text `abcdef18.0iOS`. -/
def legacyDigest : Bytes :=
  [42, 65, 174, 181, 56, 15, 113, 250, 100, 213, 33, 193, 157, 128, 79, 59]

/-- Two iPCP announcements accepted under one hash of one byte, neither of them legacy. -/
theorem announcing_current_bound :
    ∃ d₁ d₂, (announcing (currentData 2)).appData = some d₁ ∧
      (announcing (currentData 166)).appData = some d₂ ∧
      (Bound (streamOf [237]) 1 d₁ d₂ ↔ ¬ LegacyAlias d₁ d₂ ∧ ¬ LegacyAlias d₂ d₁) :=
  ipcp_binds_app_data_iff (streamOf [237]) [237] (announcing (currentData 2))
    (announcing (currentData 166)) none none (by decide) (by decide)

/-- Two iPCP announcements accepted under one hash: a byte moved from the key to
the commitment of legacy data. -/
theorem shifted_legacy_fields_accepted :
    (announcing (legacyData "abc" "def")).verify (streamOf legacyDigest) legacyDigest none =
        some (.ok ()) ∧
      (announcing (legacyData "ab" "cdef")).verify (streamOf legacyDigest) legacyDigest none =
        some (.ok ()) ∧
      ¬ Bound (streamOf legacyDigest) 16 (legacyData "abc" "def") (legacyData "ab" "cdef") := by
  refine ⟨by decide, by decide, ?_⟩
  have hfed : (legacyData "abc" "def").fed = (legacyData "ab" "cdef").fed := by decide
  rintro (heq | ⟨x, y, hx, hy, hne, -⟩)
  · exact absurd heq (by decide)
  · exact hne (Option.some.inj (hx.symm.trans (hfed.trans hy)))

/-! ## Sessions -/

/-- An announcement that carries the iPCP payload and the nonce of another one verifies
against the data of an Orb only if that Orb drew the nonce, whatever its other fields. -/
theorem AnnounceAppId.not_replayed (xof : Xof) (m m' : AnnounceAppId)
    (hi : m.encryptedIpcpPayload.isSome) (hp : m'.encryptedIpcpPayload = m.encryptedIpcpPayload)
    (hn : m'.orbNonce = m.orbNonce) (h' : Bytes) (d' : OrbAuthenticatedData)
    (hd : d'.orbNonce ≠ m.orbNonce) : m'.verify xof h' (some d') ≠ some (.ok ()) := by
  rw [ne_eq, AnnounceAppId.verify_eq_ok_iff]
  rintro ⟨d, -, -, hgate, hnonce⟩
  -- the gate lets an iPCP payload through only where the nonce is checked
  have hv : AnnounceAppId.orbPairingProtocolVersion ≤ m'.protocolVersion := hgate (hp ▸ hi)
  have hecho : m'.orbNonce = d'.orbNonce := hnonce d' rfl hv
  exact hd (hecho.symm.trans hn)

/-- The data of an Orb that drew this nonce. -/
def orbSession (nonce : Bytes) : OrbAuthenticatedData := ⟨1, [], nonce, []⟩

/-- Accepted in its own session, an announcement is refused in another one, also when
its protocol version is set back. -/
theorem downgraded_not_replayed :
    (announcing (currentData 2)).verify (streamOf currentDigest) currentDigest
        (some (orbSession [])) = some (.ok ()) ∧
      { announcing (currentData 2) with protocolVersion := 3 }.verify (streamOf currentDigest)
        currentDigest (some (orbSession [1])) ≠ some (.ok ()) :=
  ⟨by decide, AnnounceAppId.not_replayed (streamOf currentDigest) (announcing (currentData 2))
    { announcing (currentData 2) with protocolVersion := 3 } (by decide) rfl rfl currentDigest
    (orbSession [1]) (by decide)⟩

end OrbRelay.Common
