import Mathlib.Algebra.Order.Field.Rat
import Mathlib.Order.WithBot

/-!
# Doubles without rounding

A `double` of C, or a `float` of Python, whose finite values are exact rationals. Rounding
and overflow are left out; what a division by zero gives, and how that goes on, is not.

- `ExactDouble`: a rational, one of the two infinities, or `nan`. Zero has no sign, so a
  quotient by zero has the sign of the dividend.
- `add`, `sub`, `mul`, `div`: the operations, with `nan` wherever there is no value.
- `gt`: the comparison, which is false as soon as one side is `nan`.
- `ofTop`: the values that can be a largest one, in the order of `WithTop ℚ` (`gt_ofTop`).
-/

namespace Lib

/-- A double that is not rounded. -/
inductive ExactDouble where
  | finite (q : ℚ)
  | inf (negative : Bool)
  | nan
  deriving DecidableEq, Repr

namespace ExactDouble

/-- The other sign. -/
def neg : ExactDouble → ExactDouble
  | finite a => finite (-a)
  | inf m => inf !m
  | nan => nan

/-- Two infinities of different signs have no sum. -/
def add : ExactDouble → ExactDouble → ExactDouble
  | finite a, finite b => finite (a + b)
  | finite _, inf n => inf n
  | inf m, finite _ => inf m
  | inf m, inf n => if m = n then inf m else nan
  | _, _ => nan

/-- Zero and an infinity have no product. -/
def mul : ExactDouble → ExactDouble → ExactDouble
  | finite a, finite b => finite (a * b)
  | finite a, inf n => if a = 0 then nan else inf (decide (a < 0) ^^ n)
  | inf m, finite b => if b = 0 then nan else inf (m ^^ decide (b < 0))
  | inf m, inf n => inf (m ^^ n)
  | _, _ => nan

/-- Zero by zero is `nan`, and so is an infinity by an infinity. -/
def div : ExactDouble → ExactDouble → ExactDouble
  | finite a, finite b =>
    if b = 0 then if a = 0 then nan else inf (decide (a < 0)) else finite (a / b)
  | finite _, inf _ => finite 0
  | inf m, finite b => inf (m ^^ decide (b < 0))
  | _, _ => nan

instance : Add ExactDouble := ⟨add⟩

instance : Sub ExactDouble := ⟨fun x y => add x (neg y)⟩

instance : Mul ExactDouble := ⟨mul⟩

instance : Div ExactDouble := ⟨div⟩

/-- `x > y`. -/
def gt : ExactDouble → ExactDouble → Bool
  | finite a, finite b => b < a
  | finite _, inf n => n
  | inf m, finite _ => !m
  | inf m, inf n => !m && n
  | _, _ => false

section Finite

variable (a b : ℚ)

theorem finite_add : finite a + finite b = finite (a + b) := rfl

theorem finite_sub : finite a - finite b = finite (a - b) :=
  congrArg finite (sub_eq_add_neg a b).symm

theorem finite_mul : finite a * finite b = finite (a * b) := rfl

theorem gt_finite : gt (finite a) (finite b) = decide (b < a) := rfl

end Finite

theorem finite_div (a : ℚ) {b : ℚ} (hb : b ≠ 0) : finite a / finite b = finite (a / b) := if_neg hb

/-- Nothing is larger than `nan`, and `nan` is larger than nothing. -/
theorem nan_gt (x : ExactDouble) : gt nan x = false := by
  cases x <;> rfl

/-! ## The values that can be a largest one -/

/-- A rational, or infinity. -/
def ofTop : WithTop ℚ → ExactDouble
  | some q => finite q
  | none => inf false

theorem ofTop_coe (q : ℚ) : ofTop q = finite q := rfl

theorem ofTop_top : ofTop ⊤ = inf false := rfl

theorem ofTop_inj {a b : WithTop ℚ} (h : ofTop a = ofTop b) : a = b := by
  cases a with
  | top =>
    cases b with
    | top => rfl
    | coe q => cases h
  | coe p =>
    cases b with
    | top => cases h
    | coe q => exact congrArg _ (finite.inj h)

/-- **The order** is that of the rationals, with infinity above them. -/
theorem gt_ofTop (a b : WithTop ℚ) : gt (ofTop a) (ofTop b) = true ↔ b < a := by
  cases a with
  | top =>
    cases b with
    | top => simp [ofTop_top, gt]
    | coe q => simp [ofTop_top, ofTop_coe, gt]
  | coe p =>
    cases b with
    | top => simp [ofTop_top, ofTop_coe, gt]
    | coe q => simp [ofTop_coe, gt]

theorem ofTop_add_one (a : WithTop ℚ) : ofTop a + finite 1 = ofTop (a + 1) := by
  cases a with
  | top => rfl
  | coe q => rfl

/-- What is larger than a largest value so far can be one itself. -/
theorem exists_ofTop_of_gt {x : ExactDouble} {w : WithTop ℚ} (h : gt x (ofTop w) = true) :
    ∃ w', x = ofTop w' ∧ w < w' := by
  cases x with
  | nan => cases (nan_gt _).symm.trans h
  | finite q => exact ⟨q, rfl, (gt_ofTop q w).mp h⟩
  | inf m =>
    cases m with
    | false => exact ⟨⊤, rfl, (gt_ofTop ⊤ w).mp h⟩
    | true =>
      cases w with
      | top => cases h
      | coe q => cases h

end ExactDouble

end Lib
