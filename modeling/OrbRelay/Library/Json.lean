import Mathlib.Tactic

/-!
# JSON objects as text

Objects of scalars, written on one line or with a member on each. Strings are escaped so
that their closing quotation mark can be found, hence a text has one reading; written on
one line it has no control characters.
-/
namespace OrbRelay.Json

abbrev Text := List Char

/-! ## Strings -/

def quotation : Char := Char.ofNat 34
def backslash : Char := Char.ofNat 92

/-- A character of a string. Only quotation marks, backslashes and control characters are
written as escapes. -/
def escape (c : Char) : Text :=
  if c = quotation then [backslash, quotation]
  else if c = backslash then [backslash, backslash]
  else if c.toNat = 8 then [backslash, 'b']
  else if c.toNat = 9 then [backslash, 't']
  else if c.toNat = 10 then [backslash, 'n']
  else if c.toNat = 12 then [backslash, 'f']
  else if c.toNat = 13 then [backslash, 'r']
  else if c.toNat < 32 then
    [backslash, 'u', '0', '0', Nat.digitChar (c.toNat / 16), Nat.digitChar (c.toNat % 16)]
  else [c]

def hexValue (c : Char) : ℕ := if c.isDigit then c.toNat - 48 else c.toNat - 87

/-- The character that is meant at the front of a text. -/
def unescape : Text → Option (Char × Text)
  | [] => none
  | c :: rest =>
    if c = backslash then
      match rest with
      | 'b' :: rest => some (Char.ofNat 8, rest)
      | 't' :: rest => some (Char.ofNat 9, rest)
      | 'n' :: rest => some (Char.ofNat 10, rest)
      | 'f' :: rest => some (Char.ofNat 12, rest)
      | 'r' :: rest => some (Char.ofNat 13, rest)
      | 'u' :: _ :: _ :: x :: y :: rest =>
        some (Char.ofNat (16 * hexValue x + hexValue y), rest)
      | c :: rest => some (c, rest)
      | [] => none
    else some (c, rest)

theorem hexValue_digitChar (n : ℕ) (h : n < 16) : hexValue (Nat.digitChar n) = n := by
  interval_cases n <;> rfl

theorem unescape_escape (c : Char) (rest : Text) :
    unescape (escape c ++ rest) = some (c, rest) := by
  have hof {n : ℕ} (h : c.toNat = n) : Char.ofNat n = c := h ▸ Char.ofNat_toNat c
  unfold escape
  split_ifs with h₁ h₂ h₃ h₄ h₅ h₆ h₇ h₈
  · rw [h₁]
    rfl
  · rw [h₂]
    rfl
  · exact congrArg some (Prod.ext (hof h₃) rfl)
  · exact congrArg some (Prod.ext (hof h₄) rfl)
  · exact congrArg some (Prod.ext (hof h₅) rfl)
  · exact congrArg some (Prod.ext (hof h₆) rfl)
  · exact congrArg some (Prod.ext (hof h₇) rfl)
  · refine congrArg some (Prod.ext (hof ?_) rfl)
    rw [hexValue_digitChar _ (by omega), hexValue_digitChar _ (by omega)]
    omega
  · simp [unescape, h₂]

theorem escape_append_injective {c d : Char} {x y : Text} (h : escape c ++ x = escape d ++ y) :
    c = d ∧ x = y := by
  have hr := unescape_escape c x
  rw [h, unescape_escape] at hr
  simpa [eq_comm] using hr

/-- No escape begins with a quotation mark. -/
theorem escape_ne_quotation (c : Char) (x y : Text) : escape c ++ x ≠ quotation :: y := by
  intro h
  have hr := unescape_escape c x
  rw [h] at hr
  have hq : unescape (quotation :: y) = some (quotation, y) := rfl
  obtain ⟨rfl, rfl⟩ := Prod.mk.inj (Option.some.inj (hq.symm.trans hr))
  exact absurd h (by simp [escape])

def string (s : String) : Text := quotation :: s.toList.flatMap escape ++ [quotation]

theorem escapes_append_injective {s t x y : Text}
    (h : s.flatMap escape ++ quotation :: x = t.flatMap escape ++ quotation :: y) :
    s = t ∧ x = y := by
  induction s generalizing t with
  | nil =>
    cases t with
    | nil => exact ⟨rfl, (List.cons.inj h).2⟩
    | cons d t =>
      simp only [List.flatMap_cons, List.append_assoc] at h
      exact absurd h.symm (escape_ne_quotation d _ _)
  | cons c s ih =>
    simp only [List.flatMap_cons, List.append_assoc] at h
    cases t with
    | nil => exact absurd h (escape_ne_quotation c _ _)
    | cons d t =>
      simp only [List.flatMap_cons, List.append_assoc] at h
      obtain ⟨rfl, hrest⟩ := escape_append_injective h
      obtain ⟨rfl, hxy⟩ := ih hrest
      exact ⟨rfl, hxy⟩

theorem string_append_injective {s t : String} {x y : Text}
    (h : string s ++ x = string t ++ y) : s = t ∧ x = y := by
  simp only [string, List.cons_append, List.append_assoc, List.nil_append, List.cons.injEq,
    true_and] at h
  obtain ⟨hst, hxy⟩ := escapes_append_injective h
  exact ⟨String.toList_injective hst, hxy⟩

/-! ## Scalars -/

inductive Value where
  | null
  | bool (b : Bool)
  | number (n : ℕ)
  | string (s : String)
deriving DecidableEq, Repr

def Value.text : Value → Text
  | null => ['n', 'u', 'l', 'l']
  | bool true => ['t', 'r', 'u', 'e']
  | bool false => ['f', 'a', 'l', 's', 'e']
  | number n => Nat.toDigits 10 n
  | string s => Json.string s

/-- A text that does not continue a number. -/
def Ends (x : Text) : Prop := ∀ c ∈ x.head?, c.isDigit = false

theorem takeWhile_digits (n : ℕ) {x : Text} (hx : Ends x) :
    (Nat.toDigits 10 n ++ x).takeWhile Char.isDigit = Nat.toDigits 10 n := by
  have hall : ∀ c ∈ Nat.toDigits 10 n, c.isDigit = true := fun c hc =>
    Nat.isDigit_of_mem_toDigits (by decide) (by decide) hc
  rw [List.takeWhile_append_of_pos hall]
  cases x with
  | nil => simp
  | cons c x => simp [hx c rfl]

theorem digits_append_injective {n m : ℕ} {x y : Text} (hx : Ends x) (hy : Ends y)
    (h : Nat.toDigits 10 n ++ x = Nat.toDigits 10 m ++ y) : n = m ∧ x = y := by
  have hdigits : Nat.toDigits 10 n = Nat.toDigits 10 m := by
    rw [← takeWhile_digits n hx, h, takeWhile_digits m hy]
  refine ⟨?_, List.append_cancel_left (hdigits ▸ h)⟩
  rw [← Nat.ofDigitChars_ten_toDigits (n := n), hdigits, Nat.ofDigitChars_ten_toDigits]

theorem digits_ne {n : ℕ} {c : Char} {x y : Text} (hc : c.isDigit = false) :
    Nat.toDigits 10 n ++ x ≠ c :: y := by
  intro h
  obtain ⟨d, ds, hd⟩ := List.exists_cons_of_ne_nil (Nat.toDigits_ne_nil (n := n) (b := 10))
  have hdigit : d.isDigit = true :=
    Nat.isDigit_of_mem_toDigits (by decide) (by decide) (hd ▸ List.mem_cons_self)
  rw [hd] at h
  obtain rfl := (List.cons.inj h).1
  simp [hc] at hdigit

/-- A value can be cut off the front of a text, for its first character says what it is. -/
theorem Value.text_append_injective {v w : Value} {x y : Text} (hx : Ends x) (hy : Ends y)
    (h : v.text ++ x = w.text ++ y) : v = w ∧ x = y := by
  cases v with
  | null =>
    cases w with
    | null => simpa [text] using h
    | bool b => cases b <;> simp [text] at h
    | number m => exact absurd h.symm (digits_ne (by decide))
    | string t => simp [text, Json.string, quotation] at h
  | bool b =>
    cases w with
    | null => cases b <;> simp [text] at h
    | bool b' =>
      cases b <;> cases b' <;> simp [text] at h
      · exact ⟨rfl, h⟩
      · exact ⟨rfl, h⟩
    | number m => cases b <;> exact absurd h.symm (digits_ne (by decide))
    | string t => cases b <;> simp [text, Json.string, quotation] at h
  | number n =>
    cases w with
    | null => exact absurd h (digits_ne (by decide))
    | bool b => cases b <;> exact absurd h (digits_ne (by decide))
    | number m =>
      obtain ⟨rfl, hxy⟩ := digits_append_injective hx hy h
      exact ⟨rfl, hxy⟩
    | string t => exact absurd h (digits_ne (by decide))
  | string s =>
    cases w with
    | null => simp [text, Json.string, quotation] at h
    | bool b => cases b <;> simp [text, Json.string, quotation] at h
    | number m => exact absurd h.symm (digits_ne (by decide))
    | string t =>
      obtain ⟨rfl, hxy⟩ := string_append_injective h
      exact ⟨rfl, hxy⟩

/-! ## Objects -/

/-- The texts of an object without whitespace, or with one member on a line. -/
inductive Layout where
  | compact
  | pretty

/-- What stands before a member and after the last one, and before a value. -/
def Layout.indent : Layout → Text
  | compact => []
  | pretty => ['\n', ' ', ' ']

def Layout.outdent : Layout → Text
  | compact => []
  | pretty => ['\n']

def Layout.space : Layout → Text
  | compact => []
  | pretty => [' ']

def openBrace : Char := Char.ofNat 123
def closeBrace : Char := Char.ofNat 125

variable (l : Layout)

def member (m : String × Value) : Text :=
  l.indent ++ string m.1 ++ ':' :: l.space ++ m.2.text

/-- The members after the first, and the end. -/
def members : List (String × Value) → Text
  | [] => l.outdent ++ [closeBrace]
  | m :: ms => ',' :: member l m ++ members ms

def object : List (String × Value) → Text
  | [] => [openBrace, closeBrace]
  | m :: ms => openBrace :: member l m ++ members l ms

theorem members_ends (ms : List (String × Value)) (x : Text) : Ends (members l ms ++ x) := by
  intro c hc
  cases ms with
  | nil =>
    cases l <;> cases hc <;> rfl
  | cons m ms =>
    cases hc
    rfl

theorem member_append_injective {m m' : String × Value} {x y : Text} (hx : Ends x) (hy : Ends y)
    (h : member l m ++ x = member l m' ++ y) : m = m' ∧ x = y := by
  simp only [member, List.append_assoc, List.cons_append] at h
  obtain ⟨hkey, hrest⟩ := string_append_injective (List.append_cancel_left h)
  obtain ⟨hvalue, hxy⟩ := Value.text_append_injective hx hy
    (List.append_cancel_left (List.cons.inj hrest).2)
  exact ⟨Prod.ext hkey hvalue, hxy⟩

theorem members_injective {ms ms' : List (String × Value)} (h : members l ms = members l ms') :
    ms = ms' := by
  induction ms generalizing ms' with
  | nil =>
    cases ms' with
    | nil => rfl
    | cons m' ms' => cases l <;> cases (List.cons.inj h).1
  | cons m ms ih =>
    cases ms' with
    | nil => cases l <;> cases (List.cons.inj h).1
    | cons m' ms' =>
      have hends (ns : List (String × Value)) : Ends (members l ns) := by
        simpa using members_ends l ns []
      obtain ⟨rfl, hrest⟩ := member_append_injective l (hends ms) (hends ms')
        (List.cons.inj h).2
      rw [ih hrest]

/-- The text of an object has one reading. -/
theorem object_injective {ms ms' : List (String × Value)} (h : object l ms = object l ms') :
    ms = ms' := by
  have hne (m : String × Value) (ns : List (String × Value)) :
      object l [] ≠ object l (m :: ns) := by
    intro h
    cases l <;> cases (List.cons.inj (List.cons.inj h).2).1
  cases ms with
  | nil =>
    cases ms' with
    | nil => rfl
    | cons m' ms' => exact absurd h (hne m' ms')
  | cons m ms =>
    cases ms' with
    | nil => exact absurd h.symm (hne m ms)
    | cons m' ms' =>
      have hrest : members l (m :: ms) = members l (m' :: ms') :=
        congrArg (',' :: ·) (List.cons.inj h).2
      exact members_injective l hrest

/-! ## The order of members -/

/-- The members in the order of their keys. -/
def sorted (ms : List (String × Value)) : List (String × Value) :=
  ms.insertionSort fun m m' => m.1 ≤ m'.1

theorem eq_of_perm {ms ms' : List (String × Value)} (h : ms.Perm ms')
    (hk : ms.map Prod.fst = ms'.map Prod.fst) (hn : (ms.map Prod.fst).Nodup) : ms = ms' := by
  induction ms generalizing ms' with
  | nil => exact h.nil_eq
  | cons m ms ih =>
    cases ms' with
    | nil => simp at hk
    | cons m' ms' =>
      simp only [List.map_cons, List.cons.injEq, List.nodup_cons] at hk hn
      -- a later member would have the key twice
      have hm : m = m' := by
        refine (List.mem_cons.mp (h.subset List.mem_cons_self)).resolve_right fun hmem => hn.1 ?_
        rw [hk.2]
        exact List.mem_map_of_mem hmem
      subst hm
      rw [ih h.cons_inv hk.2 hn.2]

theorem sorted_injective {ms ms' : List (String × Value)}
    (hk : ms.map Prod.fst = ms'.map Prod.fst) (hn : (ms.map Prod.fst).Nodup)
    (h : sorted ms = sorted ms') : ms = ms' := by
  have hperm : (sorted ms).Perm ms := List.perm_insertionSort _ ms
  have hperm' : (sorted ms').Perm ms' := List.perm_insertionSort _ ms'
  rw [h] at hperm
  exact eq_of_perm (hperm.symm.trans hperm') hk hn

/-! ## One line -/

/-- No control characters; a line ends with one. -/
def Printable (x : Text) : Prop := ∀ c ∈ x, 32 ≤ c.toNat

instance (x : Text) : Decidable (Printable x) :=
  decidable_of_iff (x.all fun c => 32 ≤ c.toNat) (by simp [Printable])

theorem Printable.append {x y : Text} (hx : Printable x) (hy : Printable y) :
    Printable (x ++ y) := by
  intro c hc
  exact (List.mem_append.mp hc).elim (hx c) (hy c)

theorem Printable.cons {c : Char} {x : Text} (hc : 32 ≤ c.toNat) (hx : Printable x) :
    Printable (c :: x) := by
  intro d hd
  rcases List.mem_cons.mp hd with rfl | hd
  · exact hc
  · exact hx d hd

theorem printable_digit {c : Char} (h : c.isDigit = true) : 32 ≤ c.toNat := by
  simp only [Char.isDigit, ge_iff_le, Bool.and_eq_true, decide_eq_true_eq] at h
  have := UInt32.le_iff_toNat_le.mp h.1
  exact le_trans (by decide) this

theorem printable_digitChar {n : ℕ} (h : n < 16) : 32 ≤ (Nat.digitChar n).toNat := by
  interval_cases n <;> decide

theorem printable_escape (c : Char) : Printable (escape c) := by
  unfold escape
  split_ifs with h₁ h₂ h₃ h₄ h₅ h₆ h₇ h₈
  · decide
  · decide
  · decide
  · decide
  · decide
  · decide
  · decide
  · have hx := printable_digitChar (n := c.toNat / 16) (by omega)
    have hy := printable_digitChar (n := c.toNat % 16) (by omega)
    intro d hd
    simp only [List.mem_cons, List.not_mem_nil, or_false] at hd
    rcases hd with rfl | rfl | rfl | rfl | rfl | rfl <;> first | assumption | decide
  · intro d hd
    obtain rfl := List.mem_singleton.mp hd
    omega

theorem printable_string (s : String) : Printable (string s) := by
  refine .cons (by decide) (.append (fun c hc => ?_) (.cons (by decide) (by decide)))
  obtain ⟨d, -, hd⟩ := List.mem_flatMap.mp hc
  exact printable_escape d c hd

theorem printable_value (v : Value) : Printable v.text := by
  cases v with
  | null => decide
  | bool b => cases b <;> decide
  | number n => exact fun c hc =>
      printable_digit (Nat.isDigit_of_mem_toDigits (by decide) (by decide) hc)
  | string s => exact printable_string s

theorem printable_member (m : String × Value) : Printable (member .compact m) :=
  ((printable_string m.1).append (y := [':']) (by decide)).append (printable_value m.2)

theorem printable_members (ms : List (String × Value)) : Printable (members .compact ms) := by
  induction ms with
  | nil => decide
  | cons m ms ih => exact .cons (by decide) ((printable_member m).append ih)

theorem printable_object (ms : List (String × Value)) : Printable (object .compact ms) := by
  cases ms with
  | nil => decide
  | cons m ms => exact .cons (by decide) ((printable_member m).append (printable_members ms))

end OrbRelay.Json
