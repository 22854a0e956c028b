import Mathlib.Data.Rat.Floor
import Mathlib.Tactic.Linarith

/-!
# Two digits behind the point

`%.2f` for a number that is not negative: the nearest multiple of a hundredth, the even one
if two are equally near, and its decimal digits. A division in `bc` with `scale=2` cuts the
other digits off instead.

The number is an exact rational. A program prints a `double`, which is the rational that its
computation has been rounded to, and this module says nothing about that rounding: where an
average is no `double`, the text here is that of the exact average, half to even.

- `roundHalfEven` is monotone (`roundHalfEven_mono`) and moves a number by at most one half
  (`abs_roundHalfEven_sub_le`); `hundredths` is the number of hundredths, with
  `hundredths_mono` and `abs_hundredths_sub_le`.
- `pointTwo` prints a number of hundredths and `format2f` a rational. Only digits and one point are
  printed (`mem_pointTwo`), and something is (`pointTwo_ne_nil`).
- `bcDivide` is monotone in the dividend (`bcDivide_mono`); a product divided by its factor is exact
  (`bcDivide_mul_self`), and a share is whole exactly if everything is (`bcDivide_mul_eq_iff`).
-/

namespace Lib

/-- The nearest integer, and the even one halfway between two. -/
def roundHalfEven (x : ℚ) : ℤ :=
  if x - ⌊x⌋ < 1 / 2 then ⌊x⌋
  else if 1 / 2 < x - ⌊x⌋ then ⌊x⌋ + 1
  else if ⌊x⌋ % 2 = 0 then ⌊x⌋ else ⌊x⌋ + 1

theorem le_roundHalfEven (x : ℚ) : ⌊x⌋ ≤ roundHalfEven x := by
  unfold roundHalfEven
  split
  · exact Int.le_refl _
  · split
    · omega
    · split <;> omega

theorem roundHalfEven_le (x : ℚ) : roundHalfEven x ≤ ⌊x⌋ + 1 := by
  unfold roundHalfEven
  split
  · omega
  · split
    · omega
    · split <;> omega

/-- Rounding keeps the order. -/
theorem roundHalfEven_mono {x y : ℚ} (h : x ≤ y) : roundHalfEven x ≤ roundHalfEven y := by
  rcases lt_or_eq_of_le (Int.floor_mono h) with hlt | heq
  · exact (roundHalfEven_le x).trans (Int.le_trans hlt (le_roundHalfEven y))
  · unfold roundHalfEven
    rw [heq]
    by_cases hx : x - ⌊y⌋ < 1 / 2
    · rw [if_pos hx]
      exact le_roundHalfEven y
    · have hy : ¬ y - ⌊y⌋ < 1 / 2 := by linarith
      rw [if_neg hx, if_neg hy]
      by_cases hx' : 1 / 2 < x - ⌊y⌋
      · rw [if_pos hx', if_pos (by linarith)]
      · rw [if_neg hx']
        split <;> split <;> omega

/-- Nothing is farther than one half from what it is rounded to. -/
theorem abs_roundHalfEven_sub_le (x : ℚ) : |(roundHalfEven x : ℚ) - x| ≤ 1 / 2 := by
  have hfloor := Int.floor_le x
  have hlt := Int.lt_floor_add_one x
  unfold roundHalfEven
  rw [abs_le]
  split
  · constructor <;> linarith
  · split
    · push_cast
      constructor <;> linarith
    · split
      · constructor <;> linarith
      · push_cast
        constructor <;> linarith

theorem roundHalfEven_nonneg {x : ℚ} (h : 0 ≤ x) : 0 ≤ roundHalfEven x :=
  (Int.floor_nonneg.mpr h).trans (le_roundHalfEven x)

/-- A number of hundredths. -/
def hundredths (x : ℚ) : Nat := (roundHalfEven (x * 100)).toNat

theorem hundredths_mono {x y : ℚ} (h : x ≤ y) : hundredths x ≤ hundredths y :=
  Int.toNat_le_toNat (roundHalfEven_mono (mul_le_mul_of_nonneg_right h (by norm_num)))

theorem abs_hundredths_sub_le {x : ℚ} (h : 0 ≤ x) : |(hundredths x : ℚ) / 100 - x| ≤ 1 / 200 := by
  have hround := abs_roundHalfEven_sub_le (x * 100)
  have hcast : (hundredths x : ℚ) = (roundHalfEven (x * 100) : ℚ) := by
    have hnonneg := roundHalfEven_nonneg (mul_nonneg h (by norm_num : (0 : ℚ) ≤ 100))
    rw [hundredths, ← Int.cast_natCast, Int.toNat_of_nonneg hnonneg]
  rw [abs_le] at hround ⊢
  rw [hcast]
  constructor <;> linarith [hround.1, hround.2]

/-- The digits of a number of hundredths. -/
def pointTwo (n : Nat) : List Char :=
  Nat.toDigits 10 (n / 100) ++ ['.', Nat.digitChar (n / 10 % 10), Nat.digitChar (n % 10)]

/-- `%.2f`, for a number that is known exactly. A C program prints a `double`, whose own error
is not counted here. -/
def format2f (x : ℚ) : List Char := pointTwo (hundredths x)

/-- Only digits and a point are printed. -/
theorem mem_pointTwo {n : Nat} {c : Char} (h : c ∈ pointTwo n) : c.isDigit ∨ c = '.' := by
  rcases List.mem_append.mp h with h | h
  · exact .inl (Nat.isDigit_of_mem_toDigits (by decide) (by decide) h)
  · simp only [List.mem_cons, List.not_mem_nil, or_false] at h
    rcases h with rfl | rfl | rfl
    · exact .inr rfl
    · refine .inl ?_
      rw [Nat.isDigit_digitChar]
      exact decide_eq_true (Nat.mod_lt _ (by decide))
    · refine .inl ?_
      rw [Nat.isDigit_digitChar]
      exact decide_eq_true (Nat.mod_lt _ (by decide))

theorem pointTwo_ne_nil (n : Nat) : pointTwo n ≠ [] :=
  List.append_ne_nil_of_right_ne_nil _ (List.cons_ne_nil _ _)

/-! ## Cutting off -/

/-- `a/b` with `scale=2`. -/
def bcDivide (a b : ℤ) : ℚ := ((a * 100).tdiv b : ℚ) / 100

theorem bcDivide_natCast (a b : Nat) : bcDivide a b = ((a * 100 / b : Nat) : ℚ) / 100 := by
  have hdivide : ((a : ℤ) * 100).tdiv b = ((a * 100 / b : Nat) : ℤ) := by
    rw [Int.natCast_div, Int.natCast_mul]
    exact Int.tdiv_eq_ediv_of_nonneg (Int.mul_nonneg (Int.natCast_nonneg a) (by decide))
  rw [bcDivide, hdivide, Int.cast_natCast]

theorem bcDivide_mono {a a' : Nat} (h : a ≤ a') (b : Nat) : bcDivide a b ≤ bcDivide a' b := by
  rw [bcDivide_natCast, bcDivide_natCast]
  have hle : a * 100 / b ≤ a' * 100 / b := Nat.div_le_div_right (Nat.mul_le_mul_right 100 h)
  exact div_le_div_of_nonneg_right (Nat.cast_le.mpr hle) (by norm_num)

/-- Nothing is cut off a whole number. -/
theorem bcDivide_mul_self (m : Nat) {n : Nat} (hn : 0 < n) :
    bcDivide ((m * n : Nat) : ℤ) n = m := by
  rw [bcDivide_natCast, show m * n * 100 = m * 100 * n by ring, Nat.mul_div_cancel _ hn]
  push_cast
  ring

/-- Less than the whole stays less. -/
theorem bcDivide_mul_eq_iff {m k n : Nat} (hm : 0 < m) (hk : k ≤ n) (hn : 0 < n) :
    bcDivide ((m * k : Nat) : ℤ) n = m ↔ k = n := by
  constructor
  · intro h
    rw [bcDivide_natCast] at h
    have hcast : ((m * k * 100 / n : Nat) : ℚ) = ((m * 100 : Nat) : ℚ) := by
      push_cast at h ⊢
      linarith
    have hle : m * 100 * n ≤ m * k * 100 := by
      rw [← Nat.cast_injective hcast]
      exact Nat.div_mul_le_self _ _
    by_contra hne
    have hlt : k * (m * 100) < n * (m * 100) :=
      Nat.mul_lt_mul_of_pos_right (lt_of_le_of_ne hk hne) (Nat.mul_pos hm (by decide))
    linarith
  · rintro rfl
    exact bcDivide_mul_self m hn

end Lib
