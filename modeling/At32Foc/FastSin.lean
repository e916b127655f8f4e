import At32Foc.Lib.PolyBound
import At32Foc.FocState

/-!
# `fast_sin` and `fast_cos`

Range reduction by the truncated quotient with an approximate π, then two
polynomials in the square of the reduced angle.  On `[0, _2PI]` the reduced angle
stays within `3.1416` (`fastReduce_abs_le`), and there the polynomials keep
`sin² + cos²` within `2e-6` of one (`fastSin_sq_add_fastCos_sq`): the difference is
one polynomial in the squared angle, bounded by `checkBound`.
-/

namespace At32Foc

open ControlLib

def f1 (x : ℚ) : ℚ :=
  let u := 1.3528548e-10
  let u := u * x + -2.4703144e-08
  let u := u * x + 2.7532926e-06
  let u := u * x + -0.00019840381
  let u := u * x + 0.0083333179
  u * x + -0.16666666

def f2 (x : ℚ) : ℚ :=
  let u := 1.7290616e-09
  let u := u * x + -2.7093486e-07
  let u := u * x + 2.4771643e-05
  let u := u * x + -0.0013887906
  let u := u * x + 0.041666519
  u * x + -0.49999991

/-- The range reduction `fast_sin` and `fast_cos` share. -/
def fastReduce (x : ℚ) : ℚ :=
  let si := truncToInt (x * 0.31830988)
  let x := x - (si : ℚ) * M_PI
  if si % 2 = 1 then if x > 0 then x - M_PI else x + M_PI
  else x

def fastSin (x : ℚ) : ℚ :=
  let x := fastReduce x
  x + x * x * x * f1 (x * x)

def fastCos (x : ℚ) : ℚ :=
  let x := fastReduce x
  1 + x * x * f2 (x * x)

/-! ## Range reduction -/

/-- On one turn the quotient is 0 or 1. -/
theorem truncToInt_quotient {x : ℚ} (h0 : 0 ≤ x) (h1 : x ≤ _2PI) :
    (truncToInt (x * 0.31830988) = 0 ∧ x * 0.31830988 < 1) ∨
      (truncToInt (x * 0.31830988) = 1 ∧ 1 ≤ x * 0.31830988) := by
  have hq0 : 0 ≤ x * 0.31830988 := mul_nonneg h0 (by norm_num)
  have hq2 : x * 0.31830988 < 2 := by
    unfold _2PI at h1
    linarith
  rw [truncToInt_of_nonneg hq0]
  rcases lt_or_ge (x * 0.31830988) 1 with h | h
  · exact Or.inl ⟨Int.floor_eq_zero_iff.mpr ⟨hq0, h⟩, h⟩
  · refine Or.inr ⟨Int.floor_eq_iff.mpr ⟨by exact_mod_cast h, ?_⟩, h⟩
    push_cast
    linarith

theorem fastReduce_of_lt {x : ℚ} (h : truncToInt (x * 0.31830988) = 0) : fastReduce x = x := by
  simp [fastReduce, h]

theorem fastReduce_of_ge {x : ℚ} (h : truncToInt (x * 0.31830988) = 1) (hx : M_PI < x) :
    fastReduce x = x - M_PI - M_PI := by
  have hpos : x - ((1 : ℤ) : ℚ) * M_PI > 0 := by push_cast; linarith
  simp only [fastReduce, h, if_pos hpos]
  norm_num

theorem fastReduce_abs_le {x : ℚ} (h0 : 0 ≤ x) (h1 : x ≤ _2PI) : |fastReduce x| ≤ 3.1416 := by
  rcases truncToInt_quotient h0 h1 with ⟨hsi, hq⟩ | ⟨hsi, hq⟩
  · rw [fastReduce_of_lt hsi, abs_le]
    constructor <;> linarith
  · have hx : M_PI < x := by unfold M_PI; linarith
    rw [fastReduce_of_ge hsi hx, abs_le]
    unfold _2PI at h1
    unfold M_PI
    constructor <;> linarith

/-- The square of the reduced angle, as two steps of a certificate. -/
theorem fastReduce_sq_le {x : ℚ} (h0 : 0 ≤ x) (h1 : x ≤ _2PI) :
    fastReduce x * fastReduce x ≤ 2 * 2.4675 * (2 : ℕ) := by
  have hy := fastReduce_abs_le h0 h1
  rw [← abs_mul_abs_self]
  calc |fastReduce x| * |fastReduce x| ≤ 3.1416 * 3.1416 :=
        mul_le_mul hy hy (abs_nonneg _) (by norm_num)
    _ ≤ 2 * 2.4675 * (2 : ℕ) := by norm_num

/-! ## Unit norm -/

/-- The coefficients of `sin x / x` in `x²`. -/
def sinCoeffs : List ℚ :=
  [1, -0.16666666, 0.0083333179, -0.00019840381, 2.7532926e-06, -2.4703144e-08, 1.3528548e-10]

/-- The coefficients of `cos x` in `x²`. -/
def cosCoeffs : List ℚ :=
  [1, -0.49999991, 0.041666519, -0.0013887906, 2.4771643e-05, -2.7093486e-07, 1.7290616e-09]

theorem fastSin_eq (x : ℚ) :
    fastSin x = fastReduce x * polyEval sinCoeffs (fastReduce x * fastReduce x) := by
  simp only [fastSin, f1, sinCoeffs, polyEval]
  ring

theorem fastCos_eq (x : ℚ) : fastCos x = polyEval cosCoeffs (fastReduce x * fastReduce x) := by
  simp only [fastCos, f2, cosCoeffs, polyEval]
  ring

/-- `sin² + cos² - 1` as a polynomial in the squared angle. -/
def normCoeffs : List ℚ :=
  polyAdd (0 :: polyMul sinCoeffs sinCoeffs) (polyAdd (polyMul cosCoeffs cosCoeffs) [-1])

theorem polyEval_normCoeffs (x : ℚ) :
    polyEval normCoeffs (fastReduce x * fastReduce x) = fastSin x ^ 2 + fastCos x ^ 2 - 1 := by
  simp only [normCoeffs, polyEval_add, polyEval_mul, polyEval, fastSin_eq, fastCos_eq]
  ring

/-- **Unit norm** up to `2e-6` on one turn. -/
theorem fastSin_sq_add_fastCos_sq {x : ℚ} (h0 : 0 ≤ x) (h1 : x ≤ _2PI) :
    |fastSin x ^ 2 + fastCos x ^ 2 - 1| ≤ 2e-6 := by
  have hsq := fastReduce_sq_le h0 h1
  have hchk : checkBound normCoeffs 2e-6 2.4675 2 0 = true := by decide +kernel
  rw [← polyEval_normCoeffs]
  exact checkBound_sound normCoeffs 2e-6 2.4675 2 0 hchk (mul_self_nonneg _)
    (by rwa [zero_add]) two_ne_zero

theorem fastSin_abs_le {x : ℚ} (h0 : 0 ≤ x) (h1 : x ≤ _2PI) : |fastSin x| ≤ 1 + 1e-6 := by
  have h := (abs_le.mp (fastSin_sq_add_fastCos_sq h0 h1)).2
  apply abs_le_of_sq_le_sq _ (by norm_num)
  nlinarith [sq_nonneg (fastCos x)]

theorem fastCos_abs_le {x : ℚ} (h0 : 0 ≤ x) (h1 : x ≤ _2PI) : |fastCos x| ≤ 1 + 1e-6 := by
  have h := (abs_le.mp (fastSin_sq_add_fastCos_sq h0 h1)).2
  apply abs_le_of_sq_le_sq _ (by norm_num)
  nlinarith [sq_nonneg (fastSin x)]

end At32Foc
