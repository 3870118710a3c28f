import Mathlib.Tactic

/-!
# Byte strings: fixed-width numbers, length prefixes and UTF-8

A length-prefixed field can be cut off the front of any longer byte string, so
a concatenation of such fields has one reading. UTF-8 text cut out of a longer
byte string leaves the validity of the rest unchanged.
-/
namespace OrbRelay.Encoding

abbrev Bytes := List UInt8

/-- The low `k` bytes of `n`, least significant first. -/
def littleEndian : ℕ → ℕ → Bytes
  | 0, _ => []
  | k + 1, n => UInt8.ofNat (n % 256) :: littleEndian k (n / 256)

@[simp] theorem littleEndian_length (k n : ℕ) : (littleEndian k n).length = k := by
  induction k generalizing n with
  | zero => rfl
  | succ k ih => simp [littleEndian, ih]

theorem littleEndian_injective {k n m : ℕ} (hn : n < 256 ^ k) (hm : m < 256 ^ k)
    (h : littleEndian k n = littleEndian k m) : n = m := by
  induction k generalizing n m with
  | zero => simp only [pow_zero, Nat.lt_one_iff] at hn hm; rw [hn, hm]
  | succ k ih =>
    simp only [littleEndian, List.cons.injEq] at h
    have hlow : n % 256 = m % 256 := by
      have hv := congrArg UInt8.toNat h.1
      simpa only [UInt8.toNat_ofNat', Nat.reducePow, Nat.mod_mod] using hv
    have hhigh : n / 256 = m / 256 :=
      ih (Nat.div_lt_of_lt_mul (by rwa [pow_succ'] at hn))
        (Nat.div_lt_of_lt_mul (by rwa [pow_succ'] at hm)) h.2
    omega

@[simp] theorem littleEndian_zero (k : ℕ) : littleEndian k 0 = List.replicate k 0 := by
  induction k with
  | zero => rfl
  | succ k ih => simp [littleEndian, ih, List.replicate_succ]

/-- A field preceded by its length in `k` bytes. -/
def lengthPrefixed (k : ℕ) (f : Bytes) : Bytes := littleEndian k f.length ++ f

theorem lengthPrefixed_append_injective {k : ℕ} {f g x y : Bytes}
    (hf : f.length < 256 ^ k) (hg : g.length < 256 ^ k)
    (h : lengthPrefixed k f ++ x = lengthPrefixed k g ++ y) : f = g ∧ x = y := by
  simp only [lengthPrefixed, List.append_assoc] at h
  obtain ⟨hlen, hrest⟩ := List.append_inj h (by simp)
  exact List.append_inj hrest (littleEndian_injective hf hg hlen)

/-- The fields of a record, each behind its length. -/
def fields (k : ℕ) (fs : List Bytes) : Bytes := fs.flatMap (lengthPrefixed k)

@[simp] theorem fields_nil (k : ℕ) : fields k [] = [] := rfl

@[simp] theorem fields_cons (k : ℕ) (f : Bytes) (fs : List Bytes) :
    fields k (f :: fs) = lengthPrefixed k f ++ fields k fs := rfl

/-- Unique parsing: as many fields are read back as were written, and what
follows them is left over. -/
theorem fields_append_injective {k : ℕ} {fs gs : List Bytes} {x y : Bytes}
    (hlen : fs.length = gs.length) (hf : ∀ f ∈ fs, f.length < 256 ^ k)
    (hg : ∀ g ∈ gs, g.length < 256 ^ k) (h : fields k fs ++ x = fields k gs ++ y) :
    fs = gs ∧ x = y := by
  induction fs generalizing gs with
  | nil =>
    obtain rfl := List.length_eq_zero_iff.mp hlen.symm
    exact ⟨rfl, h⟩
  | cons f fs ih =>
    cases gs with
    | nil => simp at hlen
    | cons g gs =>
      simp only [fields_cons, List.append_assoc] at h
      obtain ⟨rfl, hrest⟩ := lengthPrefixed_append_injective
        (hf f List.mem_cons_self) (hg g List.mem_cons_self) h
      obtain ⟨rfl, hxy⟩ := ih (by simpa using hlen)
        (fun f hm => hf f (List.mem_cons_of_mem _ hm))
        (fun g hm => hg g (List.mem_cons_of_mem _ hm)) hrest
      exact ⟨rfl, hxy⟩

/-! ## UTF-8 -/

/-- The bytes of a text. -/
def utf8 (s : String) : Bytes := s.toByteArray.data.toList

theorem utf8_injective : Function.Injective utf8 := by
  intro s t h
  exact String.toByteArray_inj.mp (ByteArray.ext (Array.toList_inj.mp h))

theorem toByteArray_utf8 (s : String) : (utf8 s).toByteArray = s.toByteArray := by
  apply ByteArray.ext
  apply Array.toList_inj.mp
  exact List.toList_data_toByteArray

@[simp] theorem utf8_empty : utf8 "" = [] := rfl

@[simp] theorem utf8_append (s t : String) : utf8 (s ++ t) = utf8 s ++ utf8 t := by
  simp [utf8]

/-- Byte strings that are the UTF-8 form of some text. -/
def IsUtf8 (bs : Bytes) : Prop := bs.toByteArray.IsValidUTF8

instance (bs : Bytes) : Decidable (IsUtf8 bs) :=
  inferInstanceAs (Decidable bs.toByteArray.IsValidUTF8)

theorem isUtf8_utf8 (s : String) : IsUtf8 (utf8 s) := by
  rw [IsUtf8, toByteArray_utf8]
  exact s.isValidUTF8

theorem IsUtf8.append {x y : Bytes} (hx : IsUtf8 x) (hy : IsUtf8 y) : IsUtf8 (x ++ y) := by
  rw [IsUtf8, List.toByteArray_append]
  exact ByteArray.IsValidUTF8.append hx hy

/-- The text whose bytes are a given valid byte string. -/
def IsUtf8.text {bs : Bytes} (h : IsUtf8 bs) : String := .ofByteArray bs.toByteArray h

@[simp] theorem IsUtf8.utf8_text {bs : Bytes} (h : IsUtf8 bs) : utf8 h.text = bs :=
  List.toList_data_toByteArray

private theorem extract_front (x y : Bytes) :
    (x ++ y).toByteArray.extract 0 x.length = x.toByteArray := by
  rw [List.toByteArray_append]
  exact ByteArray.extract_append_eq_left (by simp)

private theorem extract_back (x y : Bytes) :
    (x ++ y).toByteArray.extract x.length (x ++ y).toByteArray.size = y.toByteArray := by
  rw [List.toByteArray_append, ByteArray.size_append]
  exact ByteArray.extract_append_eq_right (by simp) (by simp)

/-- Valid text in front leaves the validity of the rest to the rest. -/
theorem IsUtf8.append_iff {x y : Bytes} (hx : IsUtf8 x) : IsUtf8 (x ++ y) ↔ IsUtf8 y := by
  refine ⟨fun h => ?_, hx.append⟩
  have hpos : String.Pos.Raw.IsValid h.text ⟨x.length⟩ := by
    refine String.Pos.Raw.isValid_iff_isValidUTF8_extract_zero.mpr ⟨?_, ?_⟩
    · simp [String.Pos.Raw.le_iff, IsUtf8.text, String.rawEndPos, ← String.size_toByteArray]
    · simpa only [IsUtf8, IsUtf8.text, extract_front] using hx
  have hrest := hpos.isValidUTF8_extract_utf8ByteSize
  rw [← String.size_toByteArray] at hrest
  simpa only [IsUtf8, IsUtf8.text, extract_back] using hrest

/-- A character starts where the text `y` starts, so what stands before `y` is complete. -/
theorem IsUtf8.of_append_text {x y z : Bytes} (hy : IsUtf8 y) (hne : y ≠ [])
    (h : IsUtf8 (x ++ (y ++ z))) : IsUtf8 x := by
  have hlt : 0 < y.toByteArray.size := by
    simpa using List.length_pos_iff.mpr hne
  have hfirst := ByteArray.IsValidUTF8.isUTF8FirstByte_getElem_zero hy hlt
  have hpos : String.Pos.Raw.IsValid h.text ⟨x.length⟩ := by
    refine String.Pos.Raw.isValid_iff_isUTF8FirstByte.mpr (.inr ⟨?_, ?_⟩)
    · simpa [String.Pos.Raw.lt_iff, IsUtf8.text, String.rawEndPos, ← String.size_toByteArray,
        List.length_pos_iff] using Or.inl hne
    · simp only [String.getUTF8Byte, IsUtf8.text, List.getElem_toByteArray] at hfirst ⊢
      rw [List.getElem_append_right (by simp)]
      simpa [List.getElem_append_left, List.length_pos_iff.mpr hne] using hfirst
  have hfront := (String.Pos.Raw.isValid_iff_isValidUTF8_extract_zero.mp hpos).2
  simpa only [IsUtf8, IsUtf8.text, extract_front] using hfront

theorem isUtf8_zeros (k : ℕ) : IsUtf8 (List.replicate k 0) := by
  induction k with
  | zero => exact ByteArray.isValidUTF8_empty
  | succ k ih => exact IsUtf8.append (x := [0]) (by decide) ih

/-- A length-prefixed text is text again exactly when its prefix is. -/
theorem isUtf8_lengthPrefixed_append {k : ℕ} {f y : Bytes} (hf : IsUtf8 f) :
    IsUtf8 (lengthPrefixed k f ++ y) ↔ IsUtf8 (littleEndian k f.length) ∧ IsUtf8 y := by
  rw [lengthPrefixed, List.append_assoc]
  constructor
  · intro h
    have hpre : IsUtf8 (littleEndian k f.length) := by
      by_cases hne : f = []
      · subst hne
        simpa using isUtf8_zeros k
      · exact hf.of_append_text hne h
    exact ⟨hpre, hf.append_iff.mp (hpre.append_iff.mp h)⟩
  · rintro ⟨hpre, hy⟩
    exact hpre.append (hf.append hy)

end OrbRelay.Encoding
