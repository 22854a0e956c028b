import Cosc240.Lib.ExactDouble
import Cosc240.Lib.Hundredths
import Mathlib.Algebra.GroupWithZero.Nat

/-!
# The texts of numbers

How a number is read from a text, for texts in ASCII. Two programs may do so differently:

- `literal`: a decimal number with an optional sign, point and exponent, and nothing else.
- `sqliteReal`: what a column of the type `real` in SQLite converts a text to. It has to be a
  literal, up to blanks at the ends.
- `pythonFloat`: what `float` of Python reads, with `none` for a `ValueError`. Besides the
  literals, it takes underscores between digits, and the names of the values that are not finite.

Whatever SQLite converts, Python reads as the same number (`pythonFloat_of_sqliteReal`), but not
the other way around; both read back what `%.2f` has printed (`literal_pointTwo`).
-/

namespace Lib

namespace DecimalText

/-- A sign in front, if there is one, and what follows. -/
def splitSign : List Char → ℤ × List Char
  | '-' :: s => (-1, s)
  | '+' :: s => (1, s)
  | s => (1, s)

/-- The exponent at the end, or nothing. -/
def exponent : List Char → Option ℤ
  | [] => some 0
  | c :: s =>
    let (sign, digits) := splitSign s
    if (c = 'e' ∨ c = 'E') ∧ digits ≠ [] ∧ digits.all Char.isDigit then
      some (sign * Nat.ofDigitChars 10 digits 0)
    else none

/-- `m` times a power of ten. -/
def scale (m : ℤ) : ℤ → ℚ
  | .ofNat n => ((m * 10 ^ n : ℤ) : ℚ)
  | .negSucc n => mkRat m (10 ^ (n + 1))

/-- The digits behind the point, if there is one, and what follows. -/
def splitFraction : List Char → List Char × List Char
  | '.' :: s => s.span Char.isDigit
  | s => ([], s)

/-- A decimal number, with a digit before or after the point. -/
def literal (s : List Char) : Option ℚ :=
  let (sign, s) := splitSign s
  let (whole, s) := s.span Char.isDigit
  let (fraction, s) := splitFraction s
  if whole = [] ∧ fraction = [] then none
  else (exponent s).map fun e =>
    scale (sign * Nat.ofDigitChars 10 (whole ++ fraction) 0) (e - fraction.length)

/-- A blank, a tab, and what else `isspace` takes. -/
def isSpace (c : Char) : Bool := c = ' ' || ('\t' ≤ c && c ≤ '\r')

/-- The text without blanks at its ends. -/
def strip (s : List Char) : List Char :=
  ((s.dropWhile isSpace).reverse.dropWhile isSpace).reverse

/-- The text without its underscores, each of which has to be between two digits. -/
def dropUnderscores : List Char → Option (List Char)
  | [] => some []
  | '_' :: _ => none
  | c :: '_' :: d :: s =>
    if c.isDigit ∧ d.isDigit then (dropUnderscores (d :: s)).map (c :: ·) else none
  | c :: s => (dropUnderscores s).map (c :: ·)

/-- The names of what is not finite. -/
def named (s : List Char) : Option ExactDouble :=
  let (sign, s) := splitSign s
  let s := s.map Char.toLower
  if s = ['n', 'a', 'n'] then some .nan
  else if s = ['i', 'n', 'f'] ∨ s = ['i', 'n', 'f', 'i', 'n', 'i', 't', 'y'] then
    some (.inf (decide (sign < 0)))
  else none

/-- What a `real` column stores in place of a text. -/
def sqliteReal (text : String) : Option ℚ := literal (strip text.toList)

/-- `float`. -/
def pythonFloat (text : String) : Option ExactDouble :=
  let s := strip text.toList
  ((literal s <|> (dropUnderscores s).bind literal).map .finite) <|> named s

/-- **Whatever SQLite converts**, Python reads as the same number. -/
theorem pythonFloat_of_sqliteReal {text : String} {q : ℚ} (h : sqliteReal text = some q) :
    pythonFloat text = some (.finite q) := by
  unfold sqliteReal at h
  unfold pythonFloat
  dsimp only
  rw [h]
  rfl

/-! ## Reading back what has been printed -/

theorem splitSign_of_isDigit {c : Char} (hc : c.isDigit) (s : List Char) :
    splitSign (c :: s) = (1, c :: s) := by
  unfold splitSign
  split
  · next heq =>
    cases heq
    cases hc
  · next heq =>
    cases heq
    cases hc
  · rfl

theorem scale_neg_two (m : ℤ) : scale m (-2) = (m : ℚ) / 100 := by
  show mkRat m (10 ^ 2) = _
  rw [Rat.mkRat_eq_div]
  norm_num

/-- **Two digits behind the point** are read back as hundredths. -/
theorem literal_pointTwo (n : Nat) : literal (pointTwo n) = some ((n : ℚ) / 100) := by
  have hdigits : ∀ c ∈ Nat.toDigits 10 (n / 100), c.isDigit = true := fun c hc =>
    Nat.isDigit_of_mem_toDigits (by decide) (by decide) hc
  have hlast : ∀ m, (Nat.digitChar (m % 10)).isDigit = true := fun m => by
    rw [Nat.isDigit_digitChar]
    exact decide_eq_true (Nat.mod_lt _ (by decide))
  obtain ⟨c, rest, hcons⟩ : ∃ c rest, Nat.toDigits 10 (n / 100) = c :: rest :=
    List.exists_cons_of_ne_nil (Nat.toDigits_ne_nil)
  have hsign : splitSign (pointTwo n) = (1, pointTwo n) := by
    rw [pointTwo, hcons]
    exact splitSign_of_isDigit (hdigits c (hcons ▸ List.mem_cons_self)) _
  have hwhole : (pointTwo n).span Char.isDigit = (Nat.toDigits 10 (n / 100),
      ['.', Nat.digitChar (n / 10 % 10), Nat.digitChar (n % 10)]) := by
    rw [List.span_eq_takeWhile_dropWhile, pointTwo, List.takeWhile_append_of_pos hdigits,
      List.dropWhile_append_of_pos hdigits]
    simp
  have hfraction : splitFraction ['.', Nat.digitChar (n / 10 % 10), Nat.digitChar (n % 10)] =
      ([Nat.digitChar (n / 10 % 10), Nat.digitChar (n % 10)], []) := by
    rw [splitFraction, List.span_eq_takeWhile_dropWhile]
    simp [hlast]
  have hvalue : Nat.ofDigitChars 10 (Nat.toDigits 10 (n / 100) ++
      [Nat.digitChar (n / 10 % 10), Nat.digitChar (n % 10)]) 0 = n := by
    rw [Nat.ofDigitChars_append, Nat.ofDigitChars_ten_toDigits,
      Nat.ofDigitChars_cons_digitChar_of_lt_ten (Nat.mod_lt _ (by decide)),
      Nat.ofDigitChars_cons_digitChar_of_lt_ten (Nat.mod_lt _ (by decide)),
      Nat.ofDigitChars_nil]
    omega
  unfold literal
  rw [hsign]
  dsimp only
  rw [hwhole]
  dsimp only
  rw [hfraction]
  dsimp only
  rw [if_neg (fun h => List.cons_ne_nil _ _ h.2), hvalue]
  show some (scale (1 * (n : ℤ)) (-2)) = _
  rw [one_mul, scale_neg_two, Int.cast_natCast]

/-- There are no blanks to take off. -/
theorem strip_eq_self {s : List Char} (h : ∀ c ∈ s, isSpace c = false) : strip s = s := by
  have hdrop : ∀ s : List Char, (∀ c ∈ s, isSpace c = false) → s.dropWhile isSpace = s := by
    intro s h
    cases s with
    | nil => rfl
    | cons c s => exact List.dropWhile_cons_of_neg (by simp [h c List.mem_cons_self])
  rw [strip, hdrop s h, hdrop s.reverse fun c hc => h c (List.mem_reverse.mp hc),
    List.reverse_reverse]

theorem isSpace_of_mem_pointTwo {n : Nat} {c : Char} (hc : c ∈ pointTwo n) :
    isSpace c = false := by
  rcases mem_pointTwo hc with hdigit | rfl
  · rw [Char.isDigit, Bool.and_eq_true, decide_eq_true_eq, decide_eq_true_eq] at hdigit
    have hne : c ≠ ' ' := by
      rintro rfl
      exact absurd hdigit.1 (by decide)
    have hlt : ¬ c ≤ '\r' := fun hle =>
      absurd (UInt32.le_trans hdigit.1 hle) (by decide)
    simp [isSpace, hne, hlt]
  · rfl

theorem sqliteReal_pointTwo (n : Nat) :
    sqliteReal (String.ofList (pointTwo n)) = some ((n : ℚ) / 100) := by
  rw [sqliteReal, String.toList_ofList,
    strip_eq_self fun _ => isSpace_of_mem_pointTwo, literal_pointTwo]

end DecimalText

end Lib
