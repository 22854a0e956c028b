import Mathlib.Data.List.Basic
import Mathlib.Data.List.TakeWhile

/-!
# Numbers in C strings

`strtoul` in base 10, for a 64-bit `unsigned long` and the `"C"` locale, and the
language of what it converts. A pointer is the list of the characters from there
on. What `endptr` and `errno` become is part of the result (`Conversion`).

- `Numeral` is a number in the text: blanks, perhaps a sign, digits. `Numeral.text` is the text
  and `Numeral.value` what `strtoul` makes of it: too large a number becomes `ulongMax`, and any
  other one is negated modulo `2 ^ 64` if there is a minus sign.
- `Plain` numerals are digits only, and their value is the number itself as long as it is
  not too large (`decimal_le_of_value_lt`).
- `Stops` says where a run of characters of a class ends.

Main results:

- `strtoul_text`: a numeral is converted to its value, whatever follows.
- `strtoul_cases`: nothing else is converted, and then `endptr` is where it started.
- `strtoul_append_nul`: nothing behind a NUL matters to the result, and
  `examines_append_nul`: nothing behind it is looked at. `examines` counts the characters that
  are looked at, among them the one that is no digit.
- `text_unique`: a numeral ends where its digits end, so a text is read in one way only.
-/

namespace Lib

/-- The largest `unsigned long` (64 bits). -/
def ulongMax : Nat := 18446744073709551615

/-- `isspace`: a space, or one of `\t`, `\n`, `\v`, `\f`, `\r`. -/
def isspace (c : Char) : Bool := c == ' ' || 9 ≤ c.toNat && c.toNat ≤ 13

/-- The number that a run of digits stands for. -/
def decimal (digits : List Char) : Nat := Nat.ofDigitChars 10 digits 0

/-- What `strtoul` makes of a sign and digits: too large a number becomes the
largest `unsigned long`, any other is negated as an `unsigned long` if the sign
says so. -/
def ulong (sign : Option Char) (digits : List Char) : Nat :=
  if ulongMax < decimal digits then ulongMax
  else if sign = some '-' then (ulongMax + 1 - decimal digits) % (ulongMax + 1)
  else decimal digits

/-- The optional sign, and what follows it. -/
def splitSign : List Char → Option Char × List Char
  | '+' :: s => (some '+', s)
  | '-' :: s => (some '-', s)
  | s => (none, s)

/-- What `strtoul` returns, what it stores in `endptr`, and whether it sets
`errno` to `ERANGE`. -/
structure Conversion where
  value : Nat
  endptr : List Char
  erange : Bool

/-- `strtoul(s, &endptr, 10)`. Without a digit nothing is converted: the value is
0 and `endptr` is `s`. -/
def strtoul (s : List Char) : Conversion :=
  let (sign, rest) := splitSign (s.dropWhile isspace)
  let digits := rest.takeWhile Char.isDigit
  if digits = [] then ⟨0, s, false⟩
  else ⟨ulong sign digits, rest.dropWhile Char.isDigit, ulongMax < decimal digits⟩

/-! ## Maximal runs -/

section Run

variable {p : Char → Bool} {s l₁ l₂ : List Char}

/-- The text does not go on with a character of the class `p`. -/
def Stops (p : Char → Bool) (s : List Char) : Prop := ∀ c ∈ s.head?, p c = false

theorem stops_cons {c : Char} (h : p c = false) : Stops p (c :: s) := by
  intro c' hc'
  cases hc'
  exact h

theorem stops_append (h : l₁ ≠ []) (hstops : Stops p l₁) : Stops p (l₁ ++ l₂) := by
  obtain ⟨c, l, rfl⟩ := List.exists_cons_of_ne_nil h
  exact stops_cons (hstops c rfl)

theorem stops_dropWhile : Stops p (s.dropWhile p) := by
  intro c hc
  have h := List.head?_dropWhile_not p s
  rw [Option.mem_def.mp hc] at h
  simpa using h

theorem takeWhile_of_stops (h : ∀ c ∈ l₁, p c) (hstops : Stops p l₂) :
    (l₁ ++ l₂).takeWhile p = l₁ := by
  rw [List.takeWhile_append_of_pos h]
  cases l₂ with
  | nil => simp
  | cons c l₂ => simp [hstops c rfl]

theorem dropWhile_of_stops (h : ∀ c ∈ l₁, p c) (hstops : Stops p l₂) :
    (l₁ ++ l₂).dropWhile p = l₂ := by
  rw [List.dropWhile_append_of_pos h]
  cases l₂ with
  | nil => simp
  | cons c l₂ => simp [hstops c rfl]

theorem takeWhile_eq_nil_iff_stops : s.takeWhile p = [] ↔ Stops p s := by
  constructor
  · intro h
    have hrest : s.dropWhile p = s := by
      simpa [h] using List.takeWhile_append_dropWhile (p := p) (l := s)
    rw [← hrest]
    exact stops_dropWhile
  · intro h
    simpa using takeWhile_of_stops (fun c (hc : c ∈ []) => by cases hc) h

end Run

/-! ## Classes of characters -/

theorem isDigit_of_isspace {c : Char} (h : isspace c) : c.isDigit = false := by
  rw [Bool.eq_false_iff, Ne, Char.isDigit_iff_toNat]
  simp only [isspace, Bool.or_eq_true, beq_iff_eq, Bool.and_eq_true, decide_eq_true_eq] at h
  rcases h with rfl | ⟨-, h⟩
  · decide
  · simp only [Char.reduceToNat]
    omega

theorem isspace_of_isDigit {c : Char} (h : c.isDigit) : isspace c = false := by
  by_contra hc
  rw [Bool.not_eq_false] at hc
  rw [isDigit_of_isspace hc] at h
  cases h

theorem isspace_of_sign {c : Char} (h : c = '+' ∨ c = '-') : isspace c = false := by
  rcases h with rfl | rfl <;> decide

theorem isDigit_of_sign {c : Char} (h : c = '+' ∨ c = '-') : c.isDigit = false := by
  rcases h with rfl | rfl <;> decide

/-! ## The sign -/

/-- The next character is not a sign. -/
def Unsigned (s : List Char) : Prop := ∀ c ∈ s.head?, c ≠ '+' ∧ c ≠ '-'

theorem splitSign_of_unsigned {s : List Char} (h : Unsigned s) : splitSign s = (none, s) := by
  unfold splitSign
  split
  · exact absurd rfl (h '+' rfl).1
  · exact absurd rfl (h '-' rfl).2
  · rfl

theorem splitSign_append {sign : Option Char} (h : ∀ c ∈ sign, c = '+' ∨ c = '-')
    {s : List Char} (hs : sign = none → Unsigned s) : splitSign (sign.toList ++ s) = (sign, s) := by
  cases sign with
  | none => exact splitSign_of_unsigned (hs rfl)
  | some c => rcases h c rfl with rfl | rfl <;> rfl

/-- What is split off, and that there was nothing else to split off. -/
theorem splitSign_spec {s rest : List Char} {sign : Option Char} (h : splitSign s = (sign, rest)) :
    s = sign.toList ++ rest ∧ (∀ c ∈ sign, c = '+' ∨ c = '-') ∧ (sign = none → Unsigned rest) := by
  unfold splitSign at h
  split at h
  · cases h
    exact ⟨rfl, (fun c hc => by cases hc; exact .inl rfl), fun hnone => by cases hnone⟩
  · cases h
    exact ⟨rfl, (fun c hc => by cases hc; exact .inr rfl), fun hnone => by cases hnone⟩
  · rename_i hplus hminus
    cases h
    refine ⟨rfl, (fun c hc => by cases hc), fun _ c hc => ⟨?_, ?_⟩⟩
    · rintro rfl
      obtain ⟨tl, rfl⟩ := List.head?_eq_some_iff.mp hc
      exact hplus tl rfl
    · rintro rfl
      obtain ⟨tl, rfl⟩ := List.head?_eq_some_iff.mp hc
      exact hminus tl rfl

/-! ## Numerals -/

/-- A number in a text: blanks, perhaps a sign, decimal digits. -/
structure Numeral where
  blanks : List Char
  sign : Option Char
  digits : List Char
  blanks_isspace : ∀ c ∈ blanks, isspace c
  sign_eq : ∀ c ∈ sign, c = '+' ∨ c = '-'
  digits_isDigit : ∀ c ∈ digits, c.isDigit
  digits_ne_nil : digits ≠ []

namespace Numeral

def text (a : Numeral) : List Char := a.blanks ++ (a.sign.toList ++ a.digits)

def value (a : Numeral) : Nat := ulong a.sign a.digits

/-- Nothing but digits. -/
def Plain (a : Numeral) : Prop := a.blanks = [] ∧ a.sign = none

variable {a : Numeral} {s rest : List Char}

/-- A value below the largest is not cut off. -/
theorem decimal_le_of_value_lt (h : a.value < ulongMax) : decimal a.digits ≤ ulongMax := by
  by_contra hlt
  rw [value, ulong, if_pos (Nat.lt_of_not_le hlt)] at h
  exact Nat.lt_irrefl _ h

theorem Plain.text_eq (h : a.Plain) : a.text = a.digits := by
  rw [text, h.1, h.2]
  rfl

theorem Plain.value_eq (h : a.Plain) (hlt : a.value < ulongMax) : a.value = decimal a.digits := by
  rw [value, ulong, if_neg (Nat.not_lt.mpr (decimal_le_of_value_lt hlt)), h.2, if_neg (by simp)]

/-- The signed part starts with no blank. -/
theorem stops_signed (a : Numeral) : Stops isspace (a.sign.toList ++ a.digits ++ rest) := by
  refine stops_append (by simp [a.digits_ne_nil]) fun c hc => ?_
  cases hs : a.sign with
  | none =>
    rw [hs] at hc
    exact isspace_of_isDigit (a.digits_isDigit c (List.mem_of_mem_head? hc))
  | some c' =>
    rw [hs] at hc
    cases hc
    exact isspace_of_sign (a.sign_eq c hs)

theorem unsigned_digits (a : Numeral) : Unsigned (a.digits ++ rest) := by
  intro c hc
  have hmem : c ∈ a.digits := by
    obtain ⟨d, l, hd⟩ := List.exists_cons_of_ne_nil a.digits_ne_nil
    rw [hd] at hc ⊢
    cases hc
    exact List.mem_cons_self
  have hdigit := a.digits_isDigit c hmem
  constructor
  · rintro rfl
    cases hdigit
  · rintro rfl
    cases hdigit

theorem dropWhile_text (a : Numeral) :
    (a.text ++ rest).dropWhile isspace = a.sign.toList ++ (a.digits ++ rest) := by
  rw [text, List.append_assoc, dropWhile_of_stops a.blanks_isspace (stops_signed a),
    List.append_assoc]

theorem splitSign_text (a : Numeral) :
    splitSign ((a.text ++ rest).dropWhile isspace) = (a.sign, a.digits ++ rest) := by
  rw [dropWhile_text]
  exact splitSign_append a.sign_eq fun _ => unsigned_digits a

/-- A text of digits only is a plain numeral. -/
theorem plain_of_text (h : ∀ c ∈ a.text, c.isDigit) : a.Plain := by
  constructor
  · refine List.eq_nil_iff_forall_not_mem.mpr fun c hc => ?_
    have hdigit := h c (List.mem_append_left _ hc)
    rw [isDigit_of_isspace (a.blanks_isspace c hc)] at hdigit
    cases hdigit
  · refine Option.eq_none_iff_forall_not_mem.mpr fun c hc => ?_
    have hdigit := h c (List.mem_append_right _ (List.mem_append_left _ (by simpa using hc)))
    rw [isDigit_of_sign (a.sign_eq c hc)] at hdigit
    cases hdigit

/-- The characters of a numeral. -/
theorem mem_text {c : Char} (h : c ∈ a.text) :
    isspace c ∨ (c = '+' ∨ c = '-') ∨ c.isDigit := by
  rcases List.mem_append.mp h with h | h
  · exact .inl (a.blanks_isspace c h)
  · rcases List.mem_append.mp h with h | h
    · exact .inr (.inl (a.sign_eq c (by simpa using h)))
    · exact .inr (.inr (a.digits_isDigit c h))

/-- The numeral that is a run of digits. -/
def ofDigits (digits : List Char) (h : ∀ c ∈ digits, c.isDigit) (hne : digits ≠ []) : Numeral where
  blanks := []
  sign := none
  digits := digits
  blanks_isspace c hc := by cases hc
  sign_eq c hc := by cases hc
  digits_isDigit := h
  digits_ne_nil := hne

end Numeral

/-! ## `strtoul` -/

variable {s rest : List Char}

/-- A numeral is converted. -/
theorem strtoul_text (a : Numeral) (h : Stops Char.isDigit rest) :
    strtoul (a.text ++ rest) = ⟨a.value, rest, ulongMax < decimal a.digits⟩ := by
  rw [strtoul, a.splitSign_text]
  show ite _ _ _ = _
  rw [takeWhile_of_stops a.digits_isDigit h, dropWhile_of_stops a.digits_isDigit h,
    if_neg a.digits_ne_nil]
  rfl

/-- Where there are digits behind the blanks and the sign there is a numeral. -/
theorem exists_numeral {sign : Option Char}
    (hsplit : splitSign (s.dropWhile isspace) = (sign, rest))
    (hdigits : rest.takeWhile Char.isDigit ≠ []) :
    ∃ a : Numeral, a.value = ulong sign (rest.takeWhile Char.isDigit) ∧
      s = a.text ++ rest.dropWhile Char.isDigit := by
  obtain ⟨heq, hsign, -⟩ := splitSign_spec hsplit
  let a : Numeral :=
    { blanks := s.takeWhile isspace
      sign := sign
      digits := rest.takeWhile Char.isDigit
      blanks_isspace := fun c hc => List.mem_takeWhile_imp hc
      sign_eq := hsign
      digits_isDigit := fun c hc => List.mem_takeWhile_imp hc
      digits_ne_nil := hdigits }
  refine ⟨a, rfl, ?_⟩
  calc s = s.takeWhile isspace ++ s.dropWhile isspace := List.takeWhile_append_dropWhile.symm
    _ = s.takeWhile isspace ++ (sign.toList ++ rest) := by rw [heq]
    _ = a.text ++ rest.dropWhile Char.isDigit := by
      rw [Numeral.text, List.append_assoc, List.append_assoc, List.takeWhile_append_dropWhile]

/-- A numeral can be taken with all its digits. -/
theorem exists_numeral_stops (a : Numeral) (tail : List Char) :
    ∃ (b : Numeral) (rest : List Char),
      a.text ++ tail = b.text ++ rest ∧ Stops Char.isDigit rest := by
  have hdigits : (a.digits ++ tail).takeWhile Char.isDigit ≠ [] := by
    rw [List.takeWhile_append_of_pos a.digits_isDigit]
    simp [a.digits_ne_nil]
  have hsplit : splitSign ((a.text ++ tail).dropWhile isspace) = (a.sign, a.digits ++ tail) :=
    a.splitSign_text
  obtain ⟨b, -, heq⟩ := exists_numeral hsplit hdigits
  exact ⟨b, _, heq, stops_dropWhile⟩

/-- Nothing but a numeral is converted. -/
theorem strtoul_cases (s : List Char) :
    strtoul s = ⟨0, s, false⟩ ∨
      ∃ (a : Numeral) (rest : List Char), s = a.text ++ rest ∧ Stops Char.isDigit rest := by
  rcases hsplit : splitSign (s.dropWhile isspace) with ⟨sign, rest⟩
  by_cases hnil : rest.takeWhile Char.isDigit = []
  · left
    rw [strtoul, hsplit]
    exact if_pos hnil
  · right
    obtain ⟨a, -, heq⟩ := exists_numeral hsplit hnil
    exact ⟨a, _, heq, stops_dropWhile⟩

/-- A numeral ends where its digits end. -/
theorem text_unique {a b : Numeral} {r r' : List Char} (ha : Stops Char.isDigit r)
    (hb : Stops Char.isDigit r') (h : a.text ++ r = b.text ++ r') : a.text = b.text ∧ r = r' := by
  have heq : r = r' := by
    have hconv := congrArg (fun s => (strtoul s).endptr) h
    simpa only [strtoul_text a ha, strtoul_text b hb] using hconv
  subst heq
  exact ⟨List.append_cancel_right h, rfl⟩

/-! ## What is looked at -/

/-- `endptr - s`. -/
def converted (s : List Char) : Nat := s.length - (strtoul s).endptr.length

/-- How many characters from `s` on are examined: the blanks, the sign, the digits,
and the character that is no digit. -/
def examines (s : List Char) : Nat :=
  let (sign, rest) := splitSign (s.dropWhile isspace)
  (s.takeWhile isspace).length + sign.toList.length + (rest.takeWhile Char.isDigit).length + 1

theorem examines_pos (s : List Char) : 0 < examines s := Nat.succ_pos _

/-- The pointer stays in the text. -/
theorem strtoul_endptr_suffix (s : List Char) : (strtoul s).endptr <:+ s := by
  rcases strtoul_cases s with h | ⟨a, rest, rfl, hstops⟩
  · exact ⟨[], by simp [h]⟩
  · rw [strtoul_text a hstops]
    exact List.suffix_append a.text rest

theorem drop_converted (s : List Char) : s.drop (converted s) = (strtoul s).endptr :=
  (List.suffix_iff_eq_drop.mp (strtoul_endptr_suffix s)).symm

theorem converted_le (s : List Char) : converted s ≤ s.length := Nat.sub_le _ _

theorem converted_text (a : Numeral) (h : Stops Char.isDigit rest) :
    converted (a.text ++ rest) = a.text.length := by
  rw [converted, strtoul_text a h, List.length_append, Nat.add_sub_cancel]

theorem examines_le (s : List Char) : examines s ≤ s.length + 1 := by
  rcases hsplit : splitSign (s.dropWhile isspace) with ⟨sign, rest⟩
  obtain ⟨heq, -, -⟩ := splitSign_spec hsplit
  have hblanks := congrArg List.length (List.takeWhile_append_dropWhile (p := isspace) (l := s))
  have hdigits := (List.takeWhile_sublist Char.isDigit (l := rest)).length_le
  rw [heq, List.length_append, List.length_append] at hblanks
  simp only [examines, hsplit]
  omega

section Nul

variable {p : Char → Bool}

theorem dropWhile_append_stop {c : Char} (hc : p c = false) (s tail : List Char) :
    (s ++ c :: tail).dropWhile p = s.dropWhile p ++ c :: tail := by
  induction s with
  | nil => simp [hc]
  | cons c' s ih =>
    rw [List.cons_append, List.dropWhile_cons, List.dropWhile_cons, ih]
    split <;> rfl

theorem takeWhile_append_stop {c : Char} (hc : p c = false) (s tail : List Char) :
    (s ++ c :: tail).takeWhile p = s.takeWhile p := by
  induction s with
  | nil => simp [hc]
  | cons c' s ih => rw [List.cons_append, List.takeWhile_cons, List.takeWhile_cons, ih]

theorem splitSign_append_nul (s tail : List Char) :
    splitSign (s ++ '\x00' :: tail) = ((splitSign s).1, (splitSign s).2 ++ '\x00' :: tail) := by
  rcases hsplit : splitSign s with ⟨sign, rest⟩
  obtain ⟨rfl, hsign, hunsigned⟩ := splitSign_spec hsplit
  rw [List.append_assoc]
  refine splitSign_append hsign fun hnone c hc => ?_
  cases rest with
  | nil =>
    cases hc
    decide
  | cons c' rest => exact hunsigned hnone c hc

/-- A NUL ends the text of a number, whatever there is in memory behind it. -/
theorem strtoul_append_nul (s tail : List Char) :
    strtoul (s ++ '\x00' :: tail) =
      ⟨(strtoul s).value, (strtoul s).endptr ++ '\x00' :: tail, (strtoul s).erange⟩ := by
  have hspace : isspace '\x00' = false := by decide
  have hdigit : '\x00'.isDigit = false := by decide
  simp only [strtoul, dropWhile_append_stop hspace, splitSign_append_nul,
    takeWhile_append_stop hdigit, dropWhile_append_stop hdigit]
  split <;> rfl

theorem converted_append_nul (s tail : List Char) :
    converted (s ++ '\x00' :: tail) = converted s := by
  rw [converted, strtoul_append_nul, List.length_append, List.length_append,
    Nat.add_sub_add_right]
  rfl

theorem examines_append_nul (s tail : List Char) :
    examines (s ++ '\x00' :: tail) = examines s := by
  have hspace : isspace '\x00' = false := by decide
  have hdigit : '\x00'.isDigit = false := by decide
  simp only [examines, dropWhile_append_stop hspace, takeWhile_append_stop hspace,
    splitSign_append_nul, takeWhile_append_stop hdigit]

end Nul

end Lib
