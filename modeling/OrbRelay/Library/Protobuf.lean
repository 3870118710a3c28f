import OrbRelay.Library.Encoding

/-!
# The proto3 wire format

Fields of a message that are numbers or byte strings, in ascending order of their
numbers and with default values left out. A varint ends at its first byte below 128,
so it can be cut off the front of any longer byte string, and which fields were left
out can be told from the keys of those that follow.
-/
namespace OrbRelay.Protobuf
open Encoding

/-! ## Varints -/

/-- Base 128, least significant digit first, with as few bytes as possible. -/
def varint (n : ℕ) : Bytes :=
  if n < 128 then [UInt8.ofNat n] else UInt8.ofNat (n % 128 + 128) :: varint (n / 128)
termination_by n

theorem varint_of_lt {n : ℕ} (h : n < 128) : varint n = [UInt8.ofNat n] := by
  rw [varint, if_pos h]

theorem varint_of_le {n : ℕ} (h : 128 ≤ n) :
    varint n = UInt8.ofNat (n % 128 + 128) :: varint (n / 128) := by
  rw [varint, if_neg (by omega)]

theorem varint_ne_nil (n : ℕ) : varint n ≠ [] := by
  rcases Nat.lt_or_ge n 128 with h | h
  · simp [varint_of_lt h]
  · simp [varint_of_le h]

theorem ofNat_inj {a b : ℕ} (ha : a < 256) (hb : b < 256) (h : UInt8.ofNat a = UInt8.ofNat b) :
    a = b := by
  have hv := congrArg UInt8.toNat h
  simp only [UInt8.toNat_ofNat'] at hv
  omega

/-- A varint is read back from the front of whatever it was put before. -/
theorem varint_append_injective {n m : ℕ} {x y : Bytes} (h : varint n ++ x = varint m ++ y) :
    n = m ∧ x = y := by
  induction n using Nat.strong_induction_on generalizing m with
  | _ n ih =>
    rcases Nat.lt_or_ge n 128 with hn | hn <;> rcases Nat.lt_or_ge m 128 with hm | hm
    · rw [varint_of_lt hn, varint_of_lt hm, List.singleton_append, List.singleton_append,
        List.cons.injEq] at h
      exact ⟨ofNat_inj (by omega) (by omega) h.1, h.2⟩
    · rw [varint_of_lt hn, varint_of_le hm, List.singleton_append, List.cons_append,
        List.cons.injEq] at h
      have := ofNat_inj (by omega) (by omega) h.1
      omega
    · rw [varint_of_le hn, varint_of_lt hm, List.singleton_append, List.cons_append,
        List.cons.injEq] at h
      have := ofNat_inj (by omega) (by omega) h.1
      omega
    · rw [varint_of_le hn, varint_of_le hm, List.cons_append, List.cons_append,
        List.cons.injEq] at h
      have hlow := ofNat_inj (by omega) (by omega) h.1
      obtain ⟨hhigh, hxy⟩ := ih (n / 128) (by omega) h.2
      exact ⟨by omega, hxy⟩

/-! ## Fields -/

/-- The value of a field. -/
inductive Value where
  | number (n : ℕ)
  | bytes (bs : Bytes)
deriving DecidableEq, Repr

namespace Value

def wireType : Value → ℕ
  | number _ => 0
  | bytes _ => 2

/-- Values that are not written. -/
def isDefault : Value → Bool
  | number n => n = 0
  | bytes bs => bs = []

def payload : Value → Bytes
  | number n => varint n
  | bytes bs => varint bs.length ++ bs

theorem wireType_lt (v : Value) : v.wireType < 8 := by
  cases v <;> simp [wireType]

theorem payload_append_injective {v w : Value} {x y : Bytes} (ht : v.wireType = w.wireType)
    (h : v.payload ++ x = w.payload ++ y) : v = w ∧ x = y := by
  cases v with
  | number n =>
    cases w with
    | number m =>
      obtain ⟨rfl, hxy⟩ := varint_append_injective h
      exact ⟨rfl, hxy⟩
    | bytes cs => cases ht
  | bytes bs =>
    cases w with
    | number m => cases ht
    | bytes cs =>
      simp only [payload, List.append_assoc] at h
      obtain ⟨hlen, hrest⟩ := varint_append_injective h
      obtain ⟨rfl, hxy⟩ := List.append_inj hrest hlen
      exact ⟨rfl, hxy⟩

theorem eq_of_isDefault {v w : Value} (ht : v.wireType = w.wireType) (hv : v.isDefault = true)
    (hw : w.isDefault = true) : v = w := by
  cases v <;> cases w <;> simp_all [wireType, isDefault]

end Value

/-- A field number with the value of the field. -/
structure Field where
  number : ℕ
  value : Value
deriving DecidableEq, Repr

namespace Field

def key (f : Field) : ℕ := 8 * f.number + f.value.wireType

def encode (f : Field) : Bytes :=
  if f.value.isDefault then [] else varint f.key ++ f.value.payload

theorem encode_default {f : Field} (h : f.value.isDefault = true) : f.encode = [] := by
  simp [encode, h]

theorem encode_set {f : Field} (h : f.value.isDefault = false) :
    f.encode = varint f.key ++ f.value.payload := by
  simp [encode, h]

end Field

/-- The fields of a message, one after the other. -/
def encode (fs : List Field) : Bytes := fs.flatMap Field.encode

@[simp] theorem encode_cons (f : Field) (fs : List Field) :
    encode (f :: fs) = f.encode ++ encode fs := rfl

/-- What is written starts with the key of one of the fields, or is nothing. -/
theorem encode_head (fs : List Field) :
    encode fs = [] ∨ ∃ f ∈ fs, ∃ rest, encode fs = varint f.key ++ rest := by
  induction fs with
  | nil => exact .inl rfl
  | cons f fs ih =>
    cases h : f.value.isDefault with
    | true =>
      rw [encode_cons, Field.encode_default h, List.nil_append]
      refine ih.imp_right ?_
      rintro ⟨g, hg, hrest⟩
      exact ⟨g, List.mem_cons_of_mem _ hg, hrest⟩
    | false =>
      refine .inr ⟨f, List.mem_cons_self, f.value.payload ++ encode fs, ?_⟩
      rw [encode_cons, Field.encode_set h, List.append_assoc]

/-- A field that is written cannot be mistaken for fields of greater numbers. -/
theorem encode_set_ne {f : Field} {gs : List Field} (hs : f.value.isDefault = false)
    (hlt : ∀ g ∈ gs, f.number < g.number) (x : Bytes) : f.encode ++ x ≠ encode gs := by
  intro h
  rw [Field.encode_set hs, List.append_assoc] at h
  rcases encode_head gs with hnil | ⟨g, hg, rest, hhead⟩
  · rw [hnil, List.append_eq_nil_iff] at h
    exact varint_ne_nil _ h.1
  · -- the first key would be that of a later field
    rw [hhead] at h
    have hkey := (varint_append_injective h).1
    have hnum := hlt g hg
    have hf := f.value.wireType_lt
    simp only [Field.key] at hkey
    omega

/-- What a schema fixes about a field: its number and its wire type. -/
def Field.shape (f : Field) : ℕ × ℕ := (f.number, f.value.wireType)

/-- Messages of one schema, with ascending field numbers, are read back uniquely. -/
theorem encode_injective {fs gs : List Field} (hshape : fs.map Field.shape = gs.map Field.shape)
    (hsorted : (fs.map Field.number).Pairwise (· < ·)) (h : encode fs = encode gs) : fs = gs := by
  induction fs generalizing gs with
  | nil => exact (List.map_eq_nil_iff.mp hshape.symm).symm
  | cons f fs ih =>
    cases gs with
    | nil => cases hshape
    | cons g gs =>
      obtain ⟨hfg, hshape⟩ := List.cons.inj hshape
      obtain ⟨hnum, htype⟩ := Prod.mk.inj hfg
      obtain ⟨hlt, hsorted⟩ := List.pairwise_cons.mp hsorted
      have hltf : ∀ f' ∈ fs, g.number < f'.number := fun f' hf' =>
        hnum ▸ hlt _ (List.mem_map_of_mem hf')
      have hltg : ∀ g' ∈ gs, f.number < g'.number := by
        intro g' hg'
        have hmem : g'.shape ∈ fs.map Field.shape := hshape ▸ List.mem_map_of_mem hg'
        obtain ⟨f', hf', heq⟩ := List.mem_map.mp hmem
        have hnum' : f'.number = g'.number := congrArg Prod.fst heq
        exact hnum' ▸ hlt _ (List.mem_map_of_mem hf')
      rw [encode_cons, encode_cons] at h
      cases hf : f.value.isDefault <;> cases hg : g.value.isDefault
      · rw [Field.encode_set hf, Field.encode_set hg, List.append_assoc, List.append_assoc] at h
        have hrest := (varint_append_injective h).2
        obtain ⟨hv, hrest⟩ := Value.payload_append_injective htype hrest
        rw [ih hshape hsorted hrest, show f = g by cases f; cases g; simp_all]
      · rw [Field.encode_default hg, List.nil_append] at h
        exact absurd h (encode_set_ne hf hltg _)
      · rw [Field.encode_default hf, List.nil_append] at h
        exact absurd h.symm (encode_set_ne hg hltf _)
      · rw [Field.encode_default hf, Field.encode_default hg] at h
        have hv := Value.eq_of_isDefault htype hf hg
        rw [ih hshape hsorted h, show f = g by cases f; cases g; simp_all]

example : encode [⟨1, .bytes [1]⟩, ⟨2, .number 0⟩, ⟨3, .number 300⟩] =
    [0x0a, 1, 1, 0x18, 0xac, 2] := by
  simp [encode, Field.encode, Field.key, Value.isDefault, Value.payload, Value.wireType, varint]

end OrbRelay.Protobuf
