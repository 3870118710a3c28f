import OrbRelay.Library.Protobuf

/-!
# Reading the proto3 wire format

On the wire a message is a list of records, each a field number with contents of one
of five wire types. A reader takes something off the front of a byte string; what it
takes does not depend on what stands behind. Groups, for which proto3 has no syntax, are
never written. They are read, up to some depth, as the bytes that they take.
-/
namespace OrbRelay.Protobuf
open Encoding

/-! ## Readers -/

/-- A reader splits what it has read off its input, whatever follows. -/
def Cuts {α : Type*} (p : Bytes → Option (α × Bytes)) : Prop :=
  ∀ x a rest, p x = some (a, rest) → ∃ c, x = c ++ rest ∧ ∀ t, p (c ++ t) = some (a, t)

section

variable {α β : Type*} {p : Bytes → Option (α × Bytes)}

theorem Cuts.append (h : Cuts p) {x rest : Bytes} {a : α} (hx : p x = some (a, rest)) (t : Bytes) :
    p (x ++ t) = some (a, rest ++ t) := by
  obtain ⟨c, rfl, hc⟩ := h x a rest hx
  rw [List.append_assoc, hc]

/-- One reader after another. -/
theorem Cuts.bind {q : α → Bytes → Option (β × Bytes)} (hp : Cuts p) (hq : ∀ a, Cuts (q a)) :
    Cuts fun x => (p x).bind fun r => q r.1 r.2 := by
  intro x b rest h
  obtain ⟨⟨a, mid⟩, ha, hb⟩ := Option.bind_eq_some_iff.mp h
  obtain ⟨c, rfl, hc⟩ := hp x a mid ha
  obtain ⟨d, rfl, hd⟩ := hq a mid b rest hb
  refine ⟨c ++ d, by simp, fun t => ?_⟩
  rw [List.append_assoc]
  simp only [hc, Option.bind_some]
  exact hd t

theorem Cuts.map (hp : Cuts p) (f : α → β) :
    Cuts fun x => (p x).map fun r => (f r.1, r.2) := by
  intro x b rest h
  obtain ⟨⟨a, mid⟩, ha, hb⟩ := Option.map_eq_some_iff.mp h
  cases hb
  obtain ⟨c, rfl, hc⟩ := hp x a mid ha
  exact ⟨c, rfl, fun t => by simp [hc]⟩

theorem Cuts.filter (hp : Cuts p) (f : α → Bool) :
    Cuts fun x => (p x).filter fun r => f r.1 := by
  intro x a rest h
  obtain ⟨ha, hf⟩ := Option.filter_eq_some_iff.mp h
  obtain ⟨c, rfl, hc⟩ := hp x a rest ha
  exact ⟨c, rfl, fun t => by simp [hc, hf]⟩

theorem cuts_none : Cuts (fun _ => none : Bytes → Option (α × Bytes)) := by
  intro x a rest h
  cases h

theorem cuts_pure (a : α) : Cuts fun x => some (a, x) := by
  intro x b rest h
  cases h
  exact ⟨[], rfl, fun _ => rfl⟩

theorem Cuts.length_le (h : Cuts p) {x rest : Bytes} {a : α} (hx : p x = some (a, rest)) :
    rest.length ≤ x.length := by
  obtain ⟨c, rfl, -⟩ := h x a rest hx
  simp

/-- Every reading takes something. -/
def Progress (p : Bytes → Option (α × Bytes)) : Prop :=
  ∀ x a rest, p x = some (a, rest) → rest.length < x.length

theorem Progress.bind {q : α → Bytes → Option (β × Bytes)} (hp : Progress p)
    (hq : ∀ a, Cuts (q a)) : Progress fun x => (p x).bind fun r => q r.1 r.2 := by
  intro x b rest h
  obtain ⟨⟨a, mid⟩, ha, hb⟩ := Option.bind_eq_some_iff.mp h
  exact lt_of_le_of_lt ((hq a).length_le hb) (hp x a mid ha)

/-- The bytes that a reading takes, in place of what it reads. -/
def taken (p : Bytes → Option (α × Bytes)) (x : Bytes) : Option (Bytes × Bytes) :=
  (p x).map fun r => (x.take (x.length - r.2.length), r.2)

theorem Cuts.taken (hp : Cuts p) : Cuts (taken p) := by
  intro x bs rest h
  obtain ⟨⟨a, rest⟩, ha, heq⟩ := Option.map_eq_some_iff.mp h
  cases heq
  obtain ⟨c, rfl, hc⟩ := hp x a rest ha
  refine ⟨c, rfl, fun t => ?_⟩
  simp [Protobuf.taken, hc]

end

/-! ## Until nothing is left -/

section

variable {α : Type*} {p : Bytes → Option (α × Bytes)}

/-- Readings until nothing is left, at most `k` of them. -/
def readUpTo (p : Bytes → Option (α × Bytes)) : ℕ → Bytes → Option (List α)
  | _, [] => some []
  | 0, _ :: _ => none
  | k + 1, x => (p x).bind fun r => (readUpTo p k r.2).map (r.1 :: ·)

def readAll (p : Bytes → Option (α × Bytes)) (x : Bytes) : Option (List α) := readUpTo p x.length x

theorem readUpTo_eq (hp : Progress p) {k : ℕ} {x : Bytes} (h : x.length ≤ k) :
    readUpTo p k x = readAll p x := by
  induction k using Nat.strong_induction_on generalizing x with
  | _ k ih =>
    cases x with
    | nil => cases k <;> rfl
    | cons b x =>
      cases k with
      | zero => simp at h
      | succ k =>
        simp only [readAll, List.length_cons, readUpTo]
        cases hr : p (b :: x) with
        | none => rfl
        | some r =>
          have hlt := hp (b :: x) r.1 r.2 hr
          simp only [List.length_cons] at h hlt
          simp only [Option.bind_some]
          rw [ih k (Nat.lt_succ_self k) (by omega)]
          rcases Nat.lt_or_ge x.length (k + 1) with hx | hx
          · rw [ih x.length hx (by omega)]
          · omega

@[simp] theorem readAll_nil : readAll p [] = some [] := rfl

theorem readAll_ne_nil (hp : Progress p) {x : Bytes} (h : x ≠ []) :
    readAll p x = (p x).bind fun r => (readAll p r.2).map (r.1 :: ·) := by
  cases x with
  | nil => exact absurd rfl h
  | cons b x =>
    simp only [readAll, List.length_cons, readUpTo]
    cases hr : p (b :: x) with
    | none => rfl
    | some r =>
      have hlt := hp (b :: x) r.1 r.2 hr
      simp only [List.length_cons] at hlt
      simp only [Option.bind_some]
      rw [readUpTo_eq hp (by omega)]
      rfl

theorem readAll_eq_nil (hp : Progress p) {x : Bytes} (h : readAll p x = some []) : x = [] := by
  by_contra hne
  rw [readAll_ne_nil hp hne] at h
  obtain ⟨r, -, h⟩ := Option.bind_eq_some_iff.mp h
  obtain ⟨as, -, has⟩ := Option.map_eq_some_iff.mp h
  cases has

theorem readAll_eq_cons (hp : Progress p) {x : Bytes} {a : α} {as : List α}
    (h : readAll p x = some (a :: as)) :
    x ≠ [] ∧ ∃ rest, p x = some (a, rest) ∧ readAll p rest = some as := by
  have hne : x ≠ [] := by
    rintro rfl
    cases h
  rw [readAll_ne_nil hp hne] at h
  obtain ⟨⟨b, rest⟩, hb, h⟩ := Option.bind_eq_some_iff.mp h
  obtain ⟨bs, hbs, heq⟩ := Option.map_eq_some_iff.mp h
  cases heq
  exact ⟨hne, rest, hb, hbs⟩

/-- What was written piece by piece is read piece by piece. -/
theorem readAll_flatMap (hp : Progress p) {write : α → Bytes} {as : List α}
    (h : ∀ a ∈ as, ∀ t, p (write a ++ t) = some (a, t)) :
    readAll p (as.flatMap write) = some as := by
  induction as with
  | nil => rfl
  | cons a as ih =>
    have ha := h a List.mem_cons_self
    have hne : write a ++ as.flatMap write ≠ [] := by
      intro hnil
      have hlt := hp _ _ _ (ha (as.flatMap write))
      simp only [List.length_append] at hlt
      have hz := congrArg List.length hnil
      simp only [List.length_append, List.length_nil] at hz
      omega
    rw [List.flatMap_cons, readAll_ne_nil hp hne, ha, Option.bind_some,
      ih fun b hb => h b (List.mem_cons_of_mem _ hb)]
    rfl

/-- A written list that is cut short is read exactly if the cut is between two pieces. -/
theorem readAll_of_prefix (hc : Cuts p) (hp : Progress p) {write : α → Bytes} {as bs : List α}
    {x y : Bytes} (hw : ∀ a ∈ as, ∀ t, p (write a ++ t) = some (a, t))
    (hx : as.flatMap write = x ++ y) (h : readAll p x = some bs) :
    bs <+: as ∧ x = bs.flatMap write := by
  induction bs generalizing as x with
  | nil => exact ⟨List.nil_prefix, readAll_eq_nil hp h⟩
  | cons b bs ih =>
    obtain ⟨hne, rest, hb, hbs⟩ := readAll_eq_cons hp h
    cases as with
    | nil =>
      obtain ⟨rfl, -⟩ := List.append_eq_nil_iff.mp hx.symm
      exact absurd rfl hne
    | cons a as =>
      rw [List.flatMap_cons] at hx
      have hread := hc.append hb y
      rw [← hx, hw a List.mem_cons_self] at hread
      obtain ⟨rfl, htail⟩ := Prod.mk.inj (Option.some.inj hread)
      obtain ⟨hpre, hrest⟩ := ih (fun a ha => hw a (List.mem_cons_of_mem _ ha)) htail hbs
      refine ⟨List.cons_prefix_cons.mpr ⟨rfl, hpre⟩, ?_⟩
      rw [htail, ← List.append_assoc] at hx
      rw [List.flatMap_cons, ← hrest]
      exact (List.append_cancel_right hx).symm

end

/-! ## Until an end -/

section

variable {p : Bytes → Option (Bool × Bytes)}

/-- Readings until the first that reads the end, at most `k` of them. -/
def skipUpTo (p : Bytes → Option (Bool × Bytes)) : ℕ → Bytes → Option (Unit × Bytes)
  | 0, _ => none
  | k + 1, x => (p x).bind fun r => if r.1 then some ((), r.2) else skipUpTo p k r.2

def skipToEnd (p : Bytes → Option (Bool × Bytes)) (x : Bytes) : Option (Unit × Bytes) :=
  skipUpTo p x.length x

/-- There are no more readings than bytes that they take. -/
theorem skipUpTo_cut (hc : Cuts p) (hp : Progress p) {k : ℕ} {x rest : Bytes}
    (h : skipUpTo p k x = some ((), rest)) :
    ∃ c, x = c ++ rest ∧ ∀ t j, c.length ≤ j → skipUpTo p j (c ++ t) = some ((), t) := by
  induction k generalizing x with
  | zero => cases h
  | succ k ih =>
    obtain ⟨⟨last, mid⟩, hread, h⟩ := Option.bind_eq_some_iff.mp h
    have hlt := hp x last mid hread
    obtain ⟨c, rfl, hcut⟩ := hc x last mid hread
    rw [List.length_append] at hlt
    cases last with
    | true =>
      cases h
      refine ⟨c, rfl, fun t j hj => ?_⟩
      obtain ⟨j, rfl⟩ : ∃ i, j = i + 1 := ⟨j - 1, by omega⟩
      simp [skipUpTo, hcut]
    | false =>
      obtain ⟨c', rfl, hcut'⟩ := ih h
      refine ⟨c ++ c', (List.append_assoc _ _ _).symm, fun t j hj => ?_⟩
      rw [List.length_append] at hj
      obtain ⟨j, rfl⟩ : ∃ i, j = i + 1 := ⟨j - 1, by omega⟩
      rw [List.append_assoc, skipUpTo, hcut, Option.bind_some]
      exact hcut' t j (by omega)

theorem Cuts.skipToEnd (hc : Cuts p) (hp : Progress p) : Cuts (skipToEnd p) := by
  intro x a rest h
  obtain ⟨c, hx, hcut⟩ := skipUpTo_cut hc hp h
  exact ⟨c, hx, fun t => hcut t _ (by simp)⟩

end

/-- The next `n` bytes. -/
def readTake (n : ℕ) (x : Bytes) : Option (Bytes × Bytes) :=
  if n ≤ x.length then some (x.take n, x.drop n) else none

theorem readTake_append (c t : Bytes) : readTake c.length (c ++ t) = some (c, t) := by
  simp [readTake]

theorem cuts_readTake (n : ℕ) : Cuts (readTake n) := by
  intro x a rest h
  unfold readTake at h
  split_ifs at h with hn
  cases h
  refine ⟨x.take n, (List.take_append_drop n x).symm, fun t => ?_⟩
  have ht := readTake_append (x.take n) t
  rwa [List.length_take_of_le hn] at ht

/-! ## Varints -/

/-- A varint of at most `k` bytes. -/
def readDigits : ℕ → Bytes → Option (ℕ × Bytes)
  | 0, _ => none
  | _ + 1, [] => none
  | k + 1, b :: rest =>
    if b < 128 then some (b.toNat, rest)
    else (readDigits k rest).map fun r => (b.toNat % 128 + 128 * r.1, r.2)

/-- A varint has at most ten bytes, and its value fits 64 bits. -/
def readVarint (x : Bytes) : Option (ℕ × Bytes) := (readDigits 10 x).filter fun r => r.1 < 2 ^ 64

theorem cuts_readDigits (k : ℕ) : Cuts (readDigits k) := by
  induction k with
  | zero => exact cuts_none
  | succ k ih =>
    intro x a rest h
    cases x with
    | nil => cases h
    | cons b x =>
      simp only [readDigits] at h
      split_ifs at h with hb
      · cases h
        exact ⟨[b], rfl, fun t => by simp [readDigits, hb]⟩
      · obtain ⟨c, rfl, hc⟩ := ih.map (fun n => b.toNat % 128 + 128 * n) x a rest h
        exact ⟨b :: c, rfl, fun t => by simpa [readDigits, hb] using hc t⟩

theorem cuts_readVarint : Cuts readVarint :=
  (cuts_readDigits 10).filter fun n => n < 2 ^ 64

theorem readDigits_shorter {k : ℕ} {x rest : Bytes} {n : ℕ} (h : readDigits k x = some (n, rest)) :
    rest.length < x.length := by
  induction k generalizing x n with
  | zero => cases h
  | succ k ih =>
    cases x with
    | nil => cases h
    | cons b x =>
      simp only [readDigits] at h
      split_ifs at h
      · cases h
        simp
      · obtain ⟨⟨m, r⟩, hm, heq⟩ := Option.map_eq_some_iff.mp h
        cases heq
        exact (ih hm).trans (Nat.lt_succ_self _)

theorem progress_readVarint : Progress readVarint :=
  fun _ _ _ h => readDigits_shorter (Option.filter_eq_some_iff.mp h).1

/-- The last byte of a varint. -/
theorem readDigits_last {k n : ℕ} (hn : n < 128) (t : Bytes) :
    readDigits (k + 1) (varint n ++ t) = some (n, t) := by
  have hb : UInt8.ofNat n < 128 := by
    rw [UInt8.lt_iff_toNat_lt, UInt8.toNat_ofNat']
    simp only [UInt8.reduceToNat]
    omega
  have hv : n % 256 = n := by omega
  simp [varint_of_lt hn, readDigits, hb, UInt8.toNat_ofNat', hv]

theorem readDigits_varint {k n : ℕ} (hn : n < 128 ^ (k + 1)) (t : Bytes) :
    readDigits (k + 1) (varint n ++ t) = some (n, t) := by
  induction k generalizing n with
  | zero => exact readDigits_last (by simpa using hn) t
  | succ k ih =>
    rcases Nat.lt_or_ge n 128 with hlt | hge
    · exact readDigits_last hlt t
    · have hb : ¬ UInt8.ofNat (n % 128 + 128) < 128 := by
        rw [UInt8.lt_iff_toNat_lt, UInt8.toNat_ofNat']
        simp only [UInt8.reduceToNat]
        omega
      have hrest : n / 128 < 128 ^ (k + 1) := Nat.div_lt_of_lt_mul (by rwa [pow_succ'] at hn)
      have hv : (UInt8.ofNat (n % 128 + 128)).toNat % 128 + 128 * (n / 128) = n := by
        rw [UInt8.toNat_ofNat']
        omega
      rw [varint_of_le hge, List.cons_append, readDigits, if_neg hb, ih hrest, Option.map_some, hv]

theorem readVarint_varint {n : ℕ} (hn : n < 2 ^ 64) (t : Bytes) :
    readVarint (varint n ++ t) = some (n, t) := by
  have hd : n < 128 ^ (9 + 1) := hn.trans (by norm_num)
  rw [readVarint, readDigits_varint hd]
  exact Option.filter_eq_some_iff.mpr ⟨rfl, decide_eq_true hn⟩

/-! ## Records -/

/-- What a record holds, by wire type: of a group the bytes up to its end. -/
inductive Content where
  | varint (n : ℕ)
  | fixed64 (bs : Bytes)
  | bytes (bs : Bytes)
  | group (bs : Bytes)
  | fixed32 (bs : Bytes)
deriving DecidableEq, Repr

namespace Content

def wireType : Content → ℕ
  | varint _ => 0
  | fixed64 _ => 1
  | bytes _ => 2
  | group _ => 3
  | fixed32 _ => 5

def payload : Content → Bytes
  | varint n => Protobuf.varint n
  | fixed64 bs => bs
  | bytes bs => Protobuf.varint bs.length ++ bs
  | group bs => bs
  | fixed32 bs => bs

/-- Contents that are written and read back. -/
def Valid : Content → Prop
  | varint n => n < 2 ^ 64
  | fixed64 bs => bs.length = 8
  | bytes bs => bs.length < 2 ^ 64
  | group _ => False
  | fixed32 bs => bs.length = 4

end Content

/-- A field number with contents. -/
structure Record where
  number : ℕ
  content : Content
deriving DecidableEq, Repr

namespace Record

def key (r : Record) : ℕ := 8 * r.number + r.content.wireType

def encode (r : Record) : Bytes := varint r.key ++ r.content.payload

/-- Field numbers take 29 bits, and none is 0. -/
structure Valid (r : Record) : Prop where
  pos : 1 ≤ r.number
  lt : r.number < 2 ^ 29
  content : r.content.Valid

end Record

/-- A key: 32 bits, and its field number is not 0. -/
def readKey (x : Bytes) : Option (ℕ × Bytes) :=
  (readVarint x).filter fun r => r.1 < 2 ^ 32 ∧ 8 ≤ r.1

/-- The end of the group of a number, or a record in it with contents that `inner` reads. -/
def readItem (inner : ℕ → ℕ → Bytes → Option (Content × Bytes)) (number : ℕ) (x : Bytes) :
    Option (Bool × Bytes) :=
  (readKey x).bind fun r =>
    if r.1 = 8 * number + 4 then some (true, r.2)
    else (inner (r.1 / 8) (r.1 % 8) r.2).map fun s => (false, s.2)

/-- Contents of a wire type, for a field number. The end of a group stands for nothing
but that. -/
def readContentWith (inner : ℕ → ℕ → Bytes → Option (Content × Bytes)) (number wireType : ℕ) :
    Bytes → Option (Content × Bytes) :=
  match wireType with
  | 0 => fun x => (readVarint x).map fun r => (.varint r.1, r.2)
  | 1 => fun x => (readTake 8 x).map fun r => (.fixed64 r.1, r.2)
  | 2 => fun x => ((readVarint x).bind fun r => readTake r.1 r.2).map fun r => (.bytes r.1, r.2)
  | 3 => fun x => (taken (skipToEnd (readItem inner number)) x).map fun r => (.group r.1, r.2)
  | 5 => fun x => (readTake 4 x).map fun r => (.fixed32 r.1, r.2)
  | _ => fun _ => none

/-- Contents with groups inside of groups up to a depth: at depth 0 groups are empty. -/
def readContent : ℕ → ℕ → ℕ → Bytes → Option (Content × Bytes)
  | 0 => readContentWith fun _ _ _ => none
  | d + 1 => readContentWith (readContent d)

def readRecord (d : ℕ) (x : Bytes) : Option (Record × Bytes) :=
  (readKey x).bind fun r =>
    (readContent d (r.1 / 8) (r.1 % 8) r.2).map fun s => (⟨r.1 / 8, s.1⟩, s.2)

theorem cuts_readKey : Cuts readKey :=
  cuts_readVarint.filter fun n => n < 2 ^ 32 ∧ 8 ≤ n

theorem progress_readKey : Progress readKey :=
  fun _ _ _ h => progress_readVarint _ _ _ (Option.filter_eq_some_iff.mp h).1

section

variable {inner : ℕ → ℕ → Bytes → Option (Content × Bytes)}

theorem cuts_item (h : ∀ n w, Cuts (inner n w)) (number k : ℕ) : Cuts fun x =>
    if k = 8 * number + 4 then some (true, x)
    else (inner (k / 8) (k % 8) x).map fun s => (false, s.2) := by
  split_ifs
  · exact cuts_pure true
  · exact (h _ _).map fun _ => false

theorem cuts_readContentWith (h : ∀ n w, Cuts (inner n w)) (number w : ℕ) :
    Cuts (readContentWith inner number w) := by
  unfold readContentWith
  split
  · exact cuts_readVarint.map Content.varint
  · exact (cuts_readTake 8).map Content.fixed64
  · exact (cuts_readVarint.bind cuts_readTake).map Content.bytes
  · have hitem := cuts_item h number
    exact ((cuts_readKey.bind hitem).skipToEnd (progress_readKey.bind hitem)).taken.map
      Content.group
  · exact (cuts_readTake 4).map Content.fixed32
  · exact cuts_none

end

theorem cuts_readContent (d n w : ℕ) : Cuts (readContent d n w) := by
  induction d generalizing n w with
  | zero => exact cuts_readContentWith (fun _ _ => cuts_none) n w
  | succ d ih => exact cuts_readContentWith ih n w

theorem cuts_record (d k : ℕ) : Cuts fun x =>
    (readContent d (k / 8) (k % 8) x).map fun s => ((⟨k / 8, s.1⟩ : Record), s.2) :=
  (cuts_readContent d _ _).map fun c => (⟨k / 8, c⟩ : Record)

theorem cuts_readRecord (d : ℕ) : Cuts (readRecord d) := cuts_readKey.bind (cuts_record d)

theorem progress_readRecord (d : ℕ) : Progress (readRecord d) :=
  progress_readKey.bind (cuts_record d)

theorem readContent_payload {c : Content} (h : c.Valid) (d n : ℕ) (t : Bytes) :
    readContent d n c.wireType (c.payload ++ t) = some (c, t) := by
  obtain ⟨inner, hd⟩ : ∃ inner, readContent d = readContentWith inner := by
    cases d <;> exact ⟨_, rfl⟩
  rw [hd]
  cases c with
  | varint n => simp [readContentWith, Content.wireType, Content.payload, readVarint_varint h]
  | fixed64 bs =>
    have hlen : bs.length = 8 := h
    simp [readContentWith, Content.wireType, Content.payload, ← hlen, readTake_append]
  | bytes bs =>
    simp [readContentWith, Content.wireType, Content.payload, List.append_assoc,
      readVarint_varint h, readTake_append]
  | group bs => exact absurd h id
  | fixed32 bs =>
    have hlen : bs.length = 4 := h
    simp [readContentWith, Content.wireType, Content.payload, ← hlen, readTake_append]

theorem Content.wireType_lt (c : Content) : c.wireType < 8 := by
  cases c <;> simp [wireType]

/-- A record is read back from the front of whatever it was put before. -/
theorem readRecord_encode {r : Record} (h : r.Valid) (d : ℕ) (t : Bytes) :
    readRecord d (r.encode ++ t) = some (r, t) := by
  have hw := r.content.wireType_lt
  have hpos := h.pos
  have hlt := h.lt
  have hkey : r.key < 2 ^ 32 ∧ 8 ≤ r.key := by
    simp only [Record.key]
    omega
  have hnum : r.key / 8 = r.number ∧ r.key % 8 = r.content.wireType := by
    simp only [Record.key]
    omega
  have hread : readKey (r.encode ++ t) = some (r.key, r.content.payload ++ t) := by
    rw [readKey, Record.encode, List.append_assoc,
      readVarint_varint (hkey.1.trans (by norm_num))]
    exact Option.filter_eq_some_iff.mpr ⟨rfl, decide_eq_true hkey⟩
  rw [readRecord, hread, Option.bind_some, hnum.1, hnum.2, readContent_payload h.content]
  rfl

/-! ## Messages as lists of records -/

def encodeRecords (rs : List Record) : Bytes := rs.flatMap Record.encode

@[simp] theorem encodeRecords_nil : encodeRecords [] = [] := rfl

@[simp] theorem encodeRecords_cons (r : Record) (rs : List Record) :
    encodeRecords (r :: rs) = r.encode ++ encodeRecords rs := rfl

@[simp] theorem encodeRecords_append (rs ss : List Record) :
    encodeRecords (rs ++ ss) = encodeRecords rs ++ encodeRecords ss := by
  simp [encodeRecords]

def readRecords (d : ℕ) : Bytes → Option (List Record) := readAll (readRecord d)

-- a group with a number and an empty group inside, then another field
example : readRecords 1 [0x0b, 0x10, 5, 0x1b, 0x1c, 0x0c, 0x20, 7] =
    some [⟨1, .group [0x10, 5, 0x1b, 0x1c, 0x0c]⟩, ⟨4, .varint 7⟩] := by decide

/-- What is written is read back. -/
theorem readRecords_encodeRecords {rs : List Record} (h : ∀ r ∈ rs, r.Valid) (d : ℕ) :
    readRecords d (encodeRecords rs) = some rs :=
  readAll_flatMap (progress_readRecord d) fun r hr => readRecord_encode (h r hr) d

/-- A message cut short is read exactly if the cut is between two records. -/
theorem readRecords_of_prefix {rs ss : List Record} {x y : Bytes} {d : ℕ}
    (hv : ∀ r ∈ rs, r.Valid) (hx : encodeRecords rs = x ++ y) (h : readRecords d x = some ss) :
    ss <+: rs ∧ x = encodeRecords ss :=
  readAll_of_prefix (cuts_readRecord d) (progress_readRecord d)
    (fun r hr => readRecord_encode (hv r hr) d) hx h

end OrbRelay.Protobuf
