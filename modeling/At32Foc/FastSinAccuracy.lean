import At32Foc.Lib.TrigTaylor
import At32Foc.FastSin

/-!
# Accuracy of `fast_sin` and `fast_cos`

On one turn both functions are within `1e-6` of sine and cosine (`fastSin_near`).  Three
errors add up:

* the two polynomials against the Taylor polynomials of degree 19 and 18, certified
  coefficient by coefficient on the reduced range (`fastSin_reduced`, `fastCos_reduced`);
* the Taylor remainder there;
* the reduction: past the branch the angle is moved by `2 * M_PI`, which is `1.1e-7` short
  of a turn (`fastReduce_near`).  The branch itself switches past `M_PI`, where the
  polynomials of both sides are still good.
-/

namespace At32Foc

open ControlLib

theorem M_PI_near : |2 * Real.pi - 2 * (M_PI : ℝ)| ≤ 1.1e-7 := by
  have hlo := Real.pi_gt_d20
  have hhi := Real.pi_lt_d20
  rw [abs_le, M_PI]
  push_cast
  constructor <;> linarith

/-! ## The polynomials -/

/-- The remainder after ten terms on the reduced range. -/
theorem reduced_remainder {y : ℝ} (h : |y| ≤ 3.1416) : taylorTerm 10 y * 2 ≤ 1e-8 := by
  refine (mul_le_mul_of_nonneg_right (taylorTerm_le 10 h) zero_le_two).trans ?_
  norm_num [Nat.factorial]

section Reduced

variable {x : ℚ} (h0 : 0 ≤ x) (h1 : x ≤ _2PI)

include h0 h1

theorem fastReduce_abs_le_real : |(fastReduce x : ℝ)| ≤ 3.1416 := by
  have hy := fastReduce_abs_le h0 h1
  have : ((|fastReduce x| : ℚ) : ℝ) ≤ ((3.1416 : ℚ) : ℝ) := by exact_mod_cast hy
  rw [Rat.cast_abs] at this
  norm_num at this ⊢
  exact this

theorem fastCos_reduced : |(fastCos x : ℝ) - Real.cos (fastReduce x)| ≤ 8e-7 := by
  have hy := fastReduce_abs_le_real h0 h1
  have hchk : checkBound (polySub cosCoeffs (cosTaylor ℚ 10)) 7e-7 2.4675 2 0 = true := by
    decide +kernel
  have hcos := abs_cos_sub_le hchk two_ne_zero (fastReduce_sq_le h0 h1)
    (by push_cast; linarith)
  rw [← fastCos_eq] at hcos
  have hrem := reduced_remainder hy
  norm_num at hcos hrem ⊢
  linarith

theorem fastSin_reduced : |(fastSin x : ℝ) - Real.sin (fastReduce x)| ≤ 8e-7 := by
  have hy := fastReduce_abs_le_real h0 h1
  have hchk : checkBound (polySub sinCoeffs (sinTaylor ℚ 10)) 2e-7 2.4675 2 0 = true := by
    decide +kernel
  have hsin := abs_sin_sub_le hchk two_ne_zero (fastReduce_sq_le h0 h1)
    (by push_cast; linarith)
  rw [← fastSin_eq] at hsin
  have hrem := reduced_remainder hy
  norm_num at hsin hrem ⊢
  linarith

/-! ## The reduction -/

/-- The reduced angle is the angle itself, or a turn of `2 * M_PI` below. -/
theorem fastReduce_eq_or : fastReduce x = x ∨ fastReduce x = x - 2 * M_PI := by
  rcases truncToInt_quotient h0 h1 with ⟨hsi, hq⟩ | ⟨hsi, hq⟩
  · exact .inl (fastReduce_of_lt hsi)
  · have hx : M_PI < x := by unfold M_PI; linarith
    right
    rw [fastReduce_of_ge hsi hx]
    ring

/-- Whatever has the period `2π` and moves no faster than its argument. -/
theorem fastReduce_near {f : ℝ → ℝ} (hf : LipschitzWith 1 f)
    (hturn : ∀ a, f (a - 2 * Real.pi) = f a) : |f (fastReduce x) - f x| ≤ 1.1e-7 := by
  rcases fastReduce_eq_or h0 h1 with h | h
  · rw [h, sub_self, abs_zero]
    norm_num
  · have hdist := hf.dist_le_mul (x - 2 * M_PI : ℝ) (x - 2 * Real.pi)
    rw [NNReal.coe_one, one_mul, Real.dist_eq, Real.dist_eq] at hdist
    rw [h, ← hturn (x : ℝ)]
    push_cast
    calc |f (x - 2 * M_PI) - f (x - 2 * Real.pi)|
        ≤ |(x - 2 * M_PI : ℝ) - (x - 2 * Real.pi)| := hdist
      _ = |2 * Real.pi - 2 * (M_PI : ℝ)| := by congr 1; ring
      _ ≤ 1.1e-7 := M_PI_near

end Reduced

/-! ## Result -/

/-- **Accuracy** on one turn. -/
theorem fastSin_near (x : ℚ) (h0 : 0 ≤ x) (h1 : x ≤ 6.28318) :
    |(fastSin x : ℝ) - Real.sin x| ≤ 1e-6 ∧ |(fastCos x : ℝ) - Real.cos x| ≤ 1e-6 := by
  have hs := fastReduce_near h0 h1 Real.lipschitzWith_sin Real.sin_sub_two_pi
  have hc := fastReduce_near h0 h1 Real.lipschitzWith_cos Real.cos_sub_two_pi
  constructor
  · calc |(fastSin x : ℝ) - Real.sin x|
        ≤ |(fastSin x : ℝ) - Real.sin (fastReduce x)| +
            |Real.sin (fastReduce x) - Real.sin x| := abs_sub_le _ _ _
      _ ≤ 8e-7 + 1.1e-7 := add_le_add (fastSin_reduced h0 h1) hs
      _ ≤ 1e-6 := by norm_num
  · calc |(fastCos x : ℝ) - Real.cos x|
        ≤ |(fastCos x : ℝ) - Real.cos (fastReduce x)| +
            |Real.cos (fastReduce x) - Real.cos x| := abs_sub_le _ _ _
      _ ≤ 8e-7 + 1.1e-7 := add_le_add (fastCos_reduced h0 h1) hc
      _ ≤ 1e-6 := by norm_num

/-- Just before the branch takes a turn away. -/
theorem fastSin_near_seam :
    |(fastSin 3.1415927 : ℝ) - Real.sin (3.1415927 : ℚ)| ≤ 1e-6 ∧
      |(fastCos 3.1415927 : ℝ) - Real.cos (3.1415927 : ℚ)| ≤ 1e-6 :=
  fastSin_near 3.1415927 (by norm_num) (by norm_num)

end At32Foc
