import OrbRelay.Library.Records

/-!
# Messages

A codec says which records a message is written as, and what each record does to the
message read so far. It carries the proof that the records of a message lead back to
it, so a codec that loses anything cannot be built. Codecs of single fields are put
together with `prod`, and `map` gives a message the shape of a structure. How deep groups
may nest depends on how deep the message is that they are in.
-/
namespace OrbRelay.Protobuf
open Encoding

/-- One record after the other. -/
def mergeAll {α : Type} (merge : Record → α → Option α) (rs : List Record) (a : α) : Option α :=
  rs.foldlM (fun a r => merge r a) a

section

variable {α : Type} (merge : Record → α → Option α)

@[simp] theorem mergeAll_nil (a : α) : mergeAll merge [] a = some a := rfl

@[simp] theorem mergeAll_cons (r : Record) (rs : List Record) (a : α) :
    mergeAll merge (r :: rs) a = (merge r a).bind (mergeAll merge rs) := rfl

theorem mergeAll_append (rs ss : List Record) (a : α) :
    mergeAll merge (rs ++ ss) a = (mergeAll merge rs a).bind (mergeAll merge ss) := by
  simp only [mergeAll, List.foldlM_append]
  rfl

end

/-! ## Scalars -/

/-- The values of a scalar type, as the contents of a record. -/
structure Scalar (α : Type) where
  default : α
  write : α → Content
  read : Content → Option α
  valid : ∀ a, (write a).payload.length < 2 ^ 64 → (write a).Valid
  read_write : ∀ a, read (write a) = some a

/-- The scalar types that are written as varints. -/
structure Varint (α : Type) where
  default : α
  toNat : α → ℕ
  ofNat : ℕ → α
  lt : ∀ a, toNat a < 2 ^ 64
  ofNat_toNat : ∀ a, ofNat (toNat a) = a

def Varint.scalar {α : Type} (v : Varint α) : Scalar α where
  default := v.default
  write a := .varint (v.toNat a)
  read
    | .varint n => some (v.ofNat n)
    | _ => none
  valid a _ := v.lt a
  read_write a := congrArg some (v.ofNat_toNat a)

namespace Varint

/-- `uint32`; of a longer number the low bits are read. -/
def uint32 : Varint UInt32 where
  default := 0
  toNat := UInt32.toNat
  ofNat := UInt32.ofNat
  lt a := a.toNat_lt.trans (by norm_num)
  ofNat_toNat _ := UInt32.ofNat_toNat

def uint64 : Varint UInt64 where
  default := 0
  toNat := UInt64.toNat
  ofNat := UInt64.ofNat
  lt a := a.toNat_lt
  ofNat_toNat _ := UInt64.ofNat_toNat

/-- `int32` and the open enumerations: negative numbers are written with 64 bits. -/
def int32 : Varint Int32 where
  default := 0
  toNat a := (a.toInt % 2 ^ 64).toNat
  ofNat n := Int32.ofInt n
  lt a := by omega
  ofNat_toNat a := by
    have hlo := a.le_toInt
    have hhi := a.toInt_lt
    apply Int32.toInt_inj.mp
    rw [Int32.toInt_ofInt, Int.bmod_def]
    simp only [Int32.size]
    omega

def bool : Varint Bool where
  default := false
  toNat := Bool.toNat
  ofNat n := n ≠ 0
  lt a := by cases a <;> norm_num
  ofNat_toNat a := by cases a <;> rfl

end Varint

namespace Scalar

def bytes : Scalar Bytes where
  default := []
  write := .bytes
  read
    | .bytes bs => some bs
    | _ => none
  valid a h := by
    simp only [Content.payload, List.length_append] at h
    simp only [Content.Valid]
    omega
  read_write _ := rfl

/-- Texts, which have to be UTF-8. -/
def string : Scalar String where
  default := ""
  write a := .bytes (utf8 a)
  read
    | .bytes bs => if h : IsUtf8 bs then some h.text else none
    | _ => none
  valid a h := by
    simp only [Content.payload, List.length_append] at h
    simp only [Content.Valid]
    omega
  read_write a := by
    have h := isUtf8_utf8 a
    have ht : h.text = a := utf8_injective h.utf8_text
    simp [h, ht]

end Scalar

/-! ## Codecs -/

/-- How messages of a type are written and read: the field numbers that are known,
the message without any field, the records of a message, and what one record does, with
the depth that is left to groups. -/
structure Codec (α : Type) where
  numbers : List ℕ
  init : α
  write : α → List Record
  merge : ℕ → Record → α → Option α
  known : ∀ a, ∀ r ∈ write a, r.number ∈ numbers
  unknown : ∀ k r a, r.number ∉ numbers → merge k r a = some a
  valid : ∀ a, (encodeRecords (write a)).length < 2 ^ 64 → ∀ r ∈ write a, r.Valid
  merge_write : ∀ a, (encodeRecords (write a)).length < 2 ^ 64 →
    ∀ k, mergeAll (merge k) (write a) init = some a

/-- The number of a field in a schema: an equation, so that `Eq.refl` proves it. -/
def FieldNumber (n : ℕ) : Prop := decide (1 ≤ n ∧ n < 2 ^ 29) = true

theorem FieldNumber.bounds {n : ℕ} (h : FieldNumber n) : 1 ≤ n ∧ n < 2 ^ 29 :=
  of_decide_eq_true h

theorem length_encodeRecords_of_mem {r : Record} {rs : List Record} (h : r ∈ rs) :
    r.content.payload.length ≤ (encodeRecords rs).length := by
  induction rs with
  | nil => cases h
  | cons s rs ih =>
    simp only [encodeRecords_cons, List.length_append, Record.encode]
    rcases List.mem_cons.mp h with rfl | h
    · omega
    · have := ih h
      omega

namespace Codec

variable {α β : Type} {k : ℕ}

def encode (c : Codec α) (a : α) : Bytes := encodeRecords (c.write a)

/-- Reading with a depth left to groups. -/
def decodeAt (c : Codec α) (k : ℕ) (x : Bytes) : Option α :=
  (readRecords k x).bind fun rs => mergeAll (c.merge k) rs c.init

/-- `RECURSION_LIMIT` is 100, and the message itself takes one. -/
def maxDepth : ℕ := 99

def decode (c : Codec α) (x : Bytes) : Option α := c.decodeAt maxDepth x

/-- Records of other fields change nothing. -/
theorem mergeAll_unknown {c : Codec α} {rs : List Record} (h : ∀ r ∈ rs, r.number ∉ c.numbers)
    (a : α) : mergeAll (c.merge k) rs a = some a := by
  induction rs with
  | nil => rfl
  | cons r rs ih =>
    rw [mergeAll_cons, c.unknown k r a (h r List.mem_cons_self), Option.bind_some]
    exact ih fun s hs => h s (List.mem_cons_of_mem _ hs)

/-- Only the records of known fields count. -/
theorem mergeAll_filter {c : Codec α} {f : Record → Bool} (hf : ∀ r, r.number ∈ c.numbers → f r)
    (rs : List Record) (a : α) :
    mergeAll (c.merge k) (rs.filter f) a = mergeAll (c.merge k) rs a := by
  induction rs generalizing a with
  | nil => rfl
  | cons r rs ih =>
    cases hr : f r with
    | true =>
      rw [List.filter_cons_of_pos hr, mergeAll_cons, mergeAll_cons]
      exact congrArg _ (funext ih)
    | false =>
      have hn : r.number ∉ c.numbers := fun h => by simp [hf r h] at hr
      rw [List.filter_cons_of_neg (by simp [hr]), mergeAll_cons, c.unknown k r a hn,
        Option.bind_some]
      exact ih a

/-! ### Fields -/

/-- A field of which the default is not written. -/
def implicit [DecidableEq α] (n : ℕ) (s : Scalar α)
    (hn : FieldNumber n := by exact Eq.refl true) : Codec α where
  numbers := [n]
  init := s.default
  write a := if a = s.default then [] else [⟨n, s.write a⟩]
  merge _ r a := if r.number = n then s.read r.content else some a
  known a r hr := by
    split_ifs at hr
    · cases hr
    · simp [List.mem_singleton.mp hr]
  unknown _ r a hr := by
    rw [if_neg (by simpa using hr)]
  valid a h r hr := by
    have hlen := length_encodeRecords_of_mem hr
    split_ifs at hr
    · cases hr
    · cases List.mem_singleton.mp hr
      exact ⟨hn.bounds.1, hn.bounds.2, s.valid a (by simp only at hlen; omega)⟩
  merge_write a _ _ := by
    split_ifs with ha
    · simp [ha]
    · simp [s.read_write]

/-- The elements of a list, one after the other. -/
theorem mergeAll_elements {n : ℕ} {s : Scalar α} (as bs : List α) :
    mergeAll (fun r as => if r.number = n then (s.read r.content).map (as ++ [·]) else some as)
      (as.map fun a => ⟨n, s.write a⟩) bs = some (bs ++ as) := by
  induction as generalizing bs with
  | nil => simp
  | cons a as ih =>
    rw [List.map_cons, mergeAll_cons, if_pos rfl, s.read_write, Option.map_some, Option.bind_some,
      ih, List.append_assoc]
    rfl

/-- A list of which each element has a record of its own. -/
def repeated (n : ℕ) (s : Scalar α) (hn : FieldNumber n := by exact Eq.refl true) :
    Codec (List α) where
  numbers := [n]
  init := []
  write as := as.map fun a => ⟨n, s.write a⟩
  merge _ r as := if r.number = n then (s.read r.content).map (as ++ [·]) else some as
  known as r hr := by
    obtain ⟨a, -, rfl⟩ := List.mem_map.mp hr
    simp
  unknown _ r as hr := by
    rw [if_neg (by simpa using hr)]
  valid as h r hr := by
    have hlen := length_encodeRecords_of_mem hr
    obtain ⟨a, -, rfl⟩ := List.mem_map.mp hr
    exact ⟨hn.bounds.1, hn.bounds.2, s.valid a (by simp only at hlen; omega)⟩
  merge_write as _ _ := mergeAll_elements as []

/-! ### Messages -/

section

variable (c : Codec α) (d : Codec β)

/-- A record goes to the part that knows its number. -/
def mergeProd (k : ℕ) (r : Record) (p : α × β) : Option (α × β) :=
  if r.number ∈ c.numbers then (c.merge k r p.1).map (·, p.2) else (d.merge k r p.2).map (p.1, ·)

variable {c d}

/-- Whatever the records, each part is read from its own. -/
theorem mergeAll_prod_iff (h : ∀ n ∈ d.numbers, n ∉ c.numbers) {rs : List Record} {p q : α × β} :
    mergeAll (c.mergeProd d k) rs p = some q ↔
      mergeAll (c.merge k) rs p.1 = some q.1 ∧ mergeAll (d.merge k) rs p.2 = some q.2 := by
  induction rs generalizing p with
  | nil => simp [Prod.ext_iff]
  | cons r rs ih =>
    simp only [mergeAll_cons, mergeProd]
    by_cases hr : r.number ∈ c.numbers
    · rw [if_pos hr, d.unknown k r p.2 fun hd => h _ hd hr]
      cases c.merge k r p.1 with
      | none => simp
      | some a => exact ih
    · rw [if_neg hr, c.unknown k r p.1 hr]
      cases d.merge k r p.2 with
      | none => simp
      | some b => exact ih

end

/-- The fields of one codec, then those of another, with different numbers. -/
def prod (c : Codec α) (d : Codec β) (h : ∀ n ∈ d.numbers, n ∉ c.numbers := by decide) :
    Codec (α × β) where
  numbers := c.numbers ++ d.numbers
  init := (c.init, d.init)
  write p := c.write p.1 ++ d.write p.2
  merge := c.mergeProd d
  known p r hr := by
    rcases List.mem_append.mp hr with hr | hr
    · exact List.mem_append_left _ (c.known _ r hr)
    · exact List.mem_append_right _ (d.known _ r hr)
  unknown k r p hr := by
    rw [List.mem_append, not_or] at hr
    rw [mergeProd, if_neg hr.1, d.unknown _ _ _ hr.2]
    rfl
  valid p hlen r hr := by
    rw [encodeRecords_append, List.length_append] at hlen
    rcases List.mem_append.mp hr with hr | hr
    · exact c.valid p.1 (by omega) r hr
    · exact d.valid p.2 (by omega) r hr
  merge_write p hlen k := by
    rw [encodeRecords_append, List.length_append] at hlen
    have hforeign : ∀ r ∈ d.write p.2, r.number ∉ c.numbers := fun r hr => h _ (d.known _ r hr)
    have hskip : ∀ r ∈ c.write p.1, r.number ∉ d.numbers := fun r hr hd =>
      h _ hd (c.known _ r hr)
    rw [mergeAll_prod_iff h, mergeAll_append, mergeAll_append, c.merge_write p.1 (by omega),
      mergeAll_unknown hskip, Option.bind_some, Option.bind_some, mergeAll_unknown hforeign,
      d.merge_write p.2 (by omega)]
    exact ⟨rfl, rfl⟩

theorem mergeAll_map (c : Codec α) (e : α ≃ β) (rs : List Record) (a : α) :
    mergeAll (fun r b => (c.merge k r (e.symm b)).map e) rs (e a) =
      (mergeAll (c.merge k) rs a).map e := by
  induction rs generalizing a with
  | nil => rfl
  | cons r rs ih =>
    rw [mergeAll_cons, mergeAll_cons, Equiv.symm_apply_apply]
    cases c.merge k r a with
    | none => rfl
    | some a' => exact ih a'

/-- The same messages, seen as another type. -/
def map (c : Codec α) (e : α ≃ β) : Codec β where
  numbers := c.numbers
  init := e c.init
  write b := c.write (e.symm b)
  merge k r b := (c.merge k r (e.symm b)).map e
  known b := c.known (e.symm b)
  unknown k r b hr := by simp [c.unknown k r _ hr]
  valid b := c.valid (e.symm b)
  merge_write b h k := by
    rw [mergeAll_map, c.merge_write _ h]
    simp

end Codec

/-! ## Alternatives -/

/-- One of several fields, each of which is written whenever it is the one that is set.
`merge` is given what is set so far. -/
structure Variant (α : Type) where
  numbers : List ℕ
  write : α → Record
  merge : ℕ → Record → Option α → Option α
  known : ∀ a, (write a).number ∈ numbers
  valid : ∀ a, (write a).content.payload.length < 2 ^ 64 → (write a).Valid
  merge_write : ∀ a, (write a).content.payload.length < 2 ^ 64 →
    ∀ k, merge k (write a) none = some a

namespace Variant

variable {α β : Type}

def scalar (n : ℕ) (s : Scalar α) (hn : FieldNumber n := by exact Eq.refl true) : Variant α where
  numbers := [n]
  write a := ⟨n, s.write a⟩
  merge _ r _ := s.read r.content
  known _ := List.mem_singleton_self n
  valid a h := ⟨hn.bounds.1, hn.bounds.2, s.valid a h⟩
  merge_write a _ _ := s.read_write a

/-- A message inside a message; a second one is merged into the first. Schemas do not nest
as deep as the limit, so that it is for groups only to reach it. -/
def message (n : ℕ) (c : Codec α) (hn : FieldNumber n := by exact Eq.refl true) : Variant α where
  numbers := [n]
  write a := ⟨n, .bytes (c.encode a)⟩
  merge k r set :=
    match r.content with
    | .bytes bs =>
      (readRecords (k - 1) bs).bind fun rs => mergeAll (c.merge (k - 1)) rs (set.getD c.init)
    | _ => none
  known _ := List.mem_singleton_self n
  valid a h := by
    simp only [Content.payload, List.length_append] at h
    refine ⟨hn.bounds.1, hn.bounds.2, ?_⟩
    simp only [Content.Valid]
    omega
  merge_write a h k := by
    simp only [Content.payload, List.length_append, Codec.encode] at h
    simp only [Codec.encode]
    rw [readRecords_encodeRecords (c.valid a (by omega)), Option.bind_some, Option.getD_none]
    exact c.merge_write a (by omega) (k - 1)

/-- Setting one alternative takes back the other. -/
def or (v : Variant α) (w : Variant β) (h : ∀ n ∈ w.numbers, n ∉ v.numbers := by decide) :
    Variant (α ⊕ β) where
  numbers := v.numbers ++ w.numbers
  write
    | .inl a => v.write a
    | .inr b => w.write b
  merge k r set :=
    if r.number ∈ v.numbers then (v.merge k r (set.bind Sum.getLeft?)).map .inl
    else (w.merge k r (set.bind Sum.getRight?)).map .inr
  known
    | .inl a => List.mem_append_left _ (v.known a)
    | .inr b => List.mem_append_right _ (w.known b)
  valid
    | .inl a => v.valid a
    | .inr b => w.valid b
  merge_write
    | .inl a => fun hlen k => by
      simp only [v.known a, if_true, Option.bind_none, v.merge_write a hlen k, Option.map_some]
    | .inr b => fun hlen k => by
      simp only [h _ (w.known b), if_false, Option.bind_none, w.merge_write b hlen k,
        Option.map_some]

def map (v : Variant α) (e : α ≃ β) : Variant β where
  numbers := v.numbers
  write b := v.write (e.symm b)
  merge k r set := (v.merge k r (set.map e.symm)).map e
  known b := v.known (e.symm b)
  valid b := v.valid (e.symm b)
  merge_write b h k := by
    rw [Option.map_none, v.merge_write _ h]
    simp

end Variant

namespace Codec

variable {α β : Type}

/-- At most one of the alternatives is set. -/
def oneof (v : Variant α) : Codec (Option α) where
  numbers := v.numbers
  init := none
  write set := (set.map v.write).toList
  merge k r set := if r.number ∈ v.numbers then (v.merge k r set).map some else some set
  known set r hr := by
    obtain ⟨a, -, rfl⟩ := Option.map_eq_some_iff.mp (Option.mem_toList.mp hr)
    exact v.known a
  unknown _ r set hr := if_neg hr
  valid set h r hr := by
    have hlen := length_encodeRecords_of_mem hr
    obtain ⟨a, -, rfl⟩ := Option.map_eq_some_iff.mp (Option.mem_toList.mp hr)
    exact v.valid a (by omega)
  merge_write set h k := by
    cases set with
    | none => rfl
    | some a =>
      have hlen := length_encodeRecords_of_mem (r := v.write a) (List.mem_singleton_self _)
      simp only [Option.map_some, Option.toList_some] at h ⊢
      rw [mergeAll_cons, if_pos (v.known a), v.merge_write a (by omega)]
      rfl

/-- A message in a field. -/
def message (n : ℕ) (c : Codec α) (hn : FieldNumber n := by exact Eq.refl true) :
    Codec (Option α) :=
  oneof (.message n c hn)

/-- A scalar that is written whenever it is set. -/
def optional (n : ℕ) (s : Scalar α) (hn : FieldNumber n := by exact Eq.refl true) :
    Codec (Option α) :=
  oneof (.scalar n s hn)

/-! ### What is read -/

/-- The length of a message fits 64 bits, and with it all lengths inside. -/
def Sized (c : Codec α) (a : α) : Prop := (c.encode a).length < 2 ^ 64

variable {c : Codec α} {d : Codec β} {a : α} {k : ℕ}

theorem decodeAt_encode (h : c.Sized a) (k : ℕ) : c.decodeAt k (c.encode a) = some a := by
  rw [decodeAt, encode, readRecords_encodeRecords (c.valid a h), Option.bind_some,
    c.merge_write a h]

/-- What is written is read back. -/
theorem decode_encode (h : c.Sized a) : c.decode (c.encode a) = some a := decodeAt_encode h _

/-- Bytes with known records are read as these say. -/
theorem decodeAt_of_read {x : Bytes} {rs : List Record} (h : readRecords k x = some rs) :
    c.decodeAt k x = mergeAll (c.merge k) rs c.init := by
  rw [decodeAt, h, Option.bind_some]

theorem encode_map (c : Codec α) (e : α ≃ β) (b : β) : (c.map e).encode b = c.encode (e.symm b) :=
  rfl

theorem decode_map (c : Codec α) (e : α ≃ β) (x : Bytes) :
    (c.map e).decode x = (c.decode x).map e := by
  simp only [decode, decodeAt, map]
  cases readRecords maxDepth x with
  | none => rfl
  | some rs => exact c.mergeAll_map e rs c.init

theorem encode_prod (h : ∀ n ∈ d.numbers, n ∉ c.numbers) (p : α × β) :
    (c.prod d h).encode p = c.encode p.1 ++ d.encode p.2 :=
  encodeRecords_append _ _

theorem Sized.fst {h : ∀ n ∈ d.numbers, n ∉ c.numbers} {p : α × β} (hp : (c.prod d h).Sized p) :
    c.Sized p.1 := by
  rw [Sized, encode_prod, List.length_append] at hp
  exact lt_of_le_of_lt (Nat.le_add_right _ _) hp

/-- Each part of a message is read as if the other were not there. -/
theorem decode_prod_iff {h : ∀ n ∈ d.numbers, n ∉ c.numbers} {x : Bytes} {p : α × β} :
    (c.prod d h).decode x = some p ↔ c.decode x = some p.1 ∧ d.decode x = some p.2 := by
  simp only [decode, decodeAt]
  cases readRecords maxDepth x with
  | none => simp
  | some rs => exact mergeAll_prod_iff h

/-- A message in a field is read from the only record of the field. -/
theorem decode_message {n : ℕ} {hn : FieldNumber n} {x bs : Bytes} {rs : List Record}
    (hx : readRecords maxDepth x = some rs)
    (hone : rs.filter (fun r => r.number = n) = [⟨n, .bytes bs⟩])
    (h : c.decodeAt (maxDepth - 1) bs = some a) : (message n c hn).decode x = some (some a) := by
  have hf : ∀ r : Record, r.number ∈ (message n c hn).numbers → decide (r.number = n) = true :=
    fun r hr => decide_eq_true (List.mem_singleton.mp hr)
  have hmerge : (message n c hn).merge maxDepth ⟨n, .bytes bs⟩ none =
      (c.decodeAt (maxDepth - 1) bs).map some := if_pos (List.mem_singleton_self n)
  rw [decode, decodeAt_of_read hx, ← mergeAll_filter hf, hone, mergeAll_cons]
  change ((message n c hn).merge maxDepth ⟨n, .bytes bs⟩ none).bind _ = _
  rw [hmerge, h]
  rfl

/-! ### Fields in any order -/

/-- Only the order within each field matters. It does between the alternatives of a
`oneof`. -/
def Unordered (c : Codec α) : Prop :=
  ∀ rs ss : List Record, (∀ n ∈ c.numbers,
    rs.filter (fun r => r.number = n) = ss.filter fun r => r.number = n) →
      ∀ k a, mergeAll (c.merge k) rs a = mergeAll (c.merge k) ss a

theorem unordered_of_numbers {n : ℕ} (h : c.numbers = [n]) : c.Unordered := by
  intro rs ss hf k a
  have hn : ∀ r : Record, r.number ∈ c.numbers → decide (r.number = n) = true := by
    intro r hr
    rw [h, List.mem_singleton] at hr
    exact decide_eq_true hr
  rw [← mergeAll_filter hn rs, ← mergeAll_filter hn ss, hf n (by simp [h])]

theorem Unordered.prod (hc : c.Unordered) (hd : d.Unordered)
    {h : ∀ n ∈ d.numbers, n ∉ c.numbers} : (c.prod d h).Unordered := by
  intro rs ss hf k p
  have hfst := hc rs ss (fun n hn => hf n (List.mem_append_left _ hn)) k p.1
  have hsnd := hd rs ss (fun n hn => hf n (List.mem_append_right _ hn)) k p.2
  apply Option.ext
  intro q
  change mergeAll (c.mergeProd d k) rs p = some q ↔ mergeAll (c.mergeProd d k) ss p = some q
  rw [mergeAll_prod_iff h, mergeAll_prod_iff h, hfst, hsnd]

theorem Unordered.map (hc : c.Unordered) (e : α ≃ β) : (c.map e).Unordered := by
  intro rs ss hf k b
  have hmap := hc rs ss hf k (e.symm b)
  have hrs := mergeAll_map (k := k) c e rs (e.symm b)
  have hss := mergeAll_map (k := k) c e ss (e.symm b)
  rw [Equiv.apply_symm_apply] at hrs hss
  exact hrs.trans ((congrArg _ hmap).trans hss.symm)

/-- Bytes with the same records in each field are read alike, whatever stands between
these records. -/
theorem Unordered.decodeAt_eq (hc : c.Unordered) {x y : Bytes} {rs ss : List Record}
    (hx : readRecords k x = some rs) (hy : readRecords k y = some ss) (h : ∀ n ∈ c.numbers,
      rs.filter (fun r => r.number = n) = ss.filter fun r => r.number = n) :
    c.decodeAt k x = c.decodeAt k y := by
  rw [decodeAt_of_read hx, decodeAt_of_read hy, hc rs ss h]

/-! ### Messages cut short -/

/-- A message that is cut short is refused, or it is cut between two records. -/
theorem decode_of_prefix {x y : Bytes} {b : α} (h : c.Sized a) (hx : c.encode a = x ++ y)
    (hd : c.decode x = some b) : ∃ rs, rs <+: c.write a ∧ x = encodeRecords rs := by
  obtain ⟨rs, hrs, -⟩ := Option.bind_eq_some_iff.mp hd
  exact ⟨rs, readRecords_of_prefix (c.valid a h) hx hrs⟩

/-- What is cut off is lost from the back: of the second part nothing is read unless the
first one is complete. -/
theorem decode_of_prefix_prod {h : ∀ n ∈ d.numbers, n ∉ c.numbers} {p q : α × β} {x y : Bytes}
    (hp : (c.prod d h).Sized p) (hx : (c.prod d h).encode p = x ++ y)
    (hq : (c.prod d h).decode x = some q) :
    (q.2 = d.init ∧ ∃ z, c.encode p.1 = x ++ z) ∨
      (q.1 = p.1 ∧ ∃ rs, rs <+: d.write p.2 ∧ x = c.encode p.1 ++ encodeRecords rs ∧
        mergeAll (d.merge maxDepth) rs d.init = some q.2) := by
  obtain ⟨rs, hrs, rfl⟩ := decode_of_prefix hp hx hq
  have hv : ∀ r ∈ rs, r.Valid := fun r hr => (c.prod d h).valid p hp r (hrs.subset hr)
  have hm := hq
  rw [decode, decodeAt_of_read (readRecords_encodeRecords hv _)] at hm
  obtain ⟨hfst, hsnd⟩ := (mergeAll_prod_iff h).mp hm
  change mergeAll (c.merge maxDepth) rs c.init = some q.1 at hfst
  change mergeAll (d.merge maxDepth) rs d.init = some q.2 at hsnd
  rcases List.prefix_or_prefix_of_prefix hrs (List.prefix_append _ _) with ⟨ts, hts⟩ | ⟨ss, rfl⟩
  · left
    have hforeign : ∀ r ∈ rs, r.number ∉ d.numbers := fun r hr hd =>
      h _ hd (c.known p.1 r (hts ▸ List.mem_append_left ts hr))
    rw [mergeAll_unknown hforeign] at hsnd
    exact ⟨(Option.some.inj hsnd).symm, encodeRecords ts, by rw [encode, ← hts,
      encodeRecords_append]⟩
  · right
    have hss : ss <+: d.write p.2 := (List.prefix_append_right_inj _).mp hrs
    have hforeign : ∀ r ∈ ss, r.number ∉ c.numbers := fun r hr =>
      h _ (d.known p.2 r (hss.subset hr))
    rw [mergeAll_append, c.merge_write _ hp.fst, Option.bind_some, mergeAll_unknown hforeign]
      at hfst
    have hskip : mergeAll (d.merge maxDepth) (c.write p.1) d.init = some d.init :=
      mergeAll_unknown (fun r hr hd => h _ hd (c.known p.1 r hr)) _
    rw [mergeAll_append, hskip, Option.bind_some] at hsnd
    exact ⟨(Option.some.inj hfst).symm, ss, hss, encodeRecords_append _ _, hsnd⟩

end Codec

end OrbRelay.Protobuf
