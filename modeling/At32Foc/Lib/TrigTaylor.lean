import At32Foc.Lib.PolyBound

/-!
# Certified approximations of sine and cosine

The Taylor polynomials of cosine and of sine over its argument, as coefficient lists in
the squared argument, with the remainder of the exponential series; and polynomials over
the rationals against the functions themselves: a bound on the difference to the Taylor
polynomial, certified by `checkBound`, is a bound on the error up to that remainder
(`abs_cos_sub_le`, `abs_sin_sub_le`).
-/

namespace ControlLib

open Finset

/-! ## Polynomials -/

section Eval

variable {K : Type*} [Field K]

theorem polyEval_concat (p : List K) (a x : K) :
    polyEval (p ++ [a]) x = polyEval p x + a * x ^ p.length := by
  induction p with
  | nil => simp [polyEval]
  | cons b p ih =>
    rw [List.cons_append, polyEval, ih, polyEval, List.length_cons]
    ring

def polySub (p q : List K) : List K := polyAdd p (q.map (-1 * ·))

theorem polyEval_sub (p q : List K) (x : K) :
    polyEval (polySub p q) x = polyEval p x - polyEval q x := by
  rw [polySub, polyEval_add, polyEval_map_mul]
  ring

end Eval

theorem polyEval_cast (p : List ℚ) (x : ℚ) :
    ((polyEval p x : ℚ) : ℝ) = polyEval (p.map ((↑) : ℚ → ℝ)) (x : ℝ) := by
  induction p with
  | nil => exact Rat.cast_zero
  | cons a p ih =>
    rw [List.map_cons, polyEval, polyEval, ← ih]
    push_cast
    rfl

/-! ## Taylor polynomials -/

section Taylor

variable (K : Type*) [Field K]

/-- The first `N` coefficients of `cos y` in `y²`. -/
def cosTaylor (N : ℕ) : List K := (List.range N).map fun j => (-1) ^ j / ((2 * j).factorial : K)

/-- The first `N` coefficients of `sin y / y` in `y²`. -/
def sinTaylor (N : ℕ) : List K :=
  (List.range N).map fun j => (-1) ^ j / ((2 * j + 1).factorial : K)

theorem cosTaylor_succ (N : ℕ) :
    cosTaylor K (N + 1) = cosTaylor K N ++ [(-1) ^ N / ((2 * N).factorial : K)] := by
  rw [cosTaylor, List.range_succ, List.map_append]
  rfl

theorem sinTaylor_succ (N : ℕ) :
    sinTaylor K (N + 1) = sinTaylor K N ++ [(-1) ^ N / ((2 * N + 1).factorial : K)] := by
  rw [sinTaylor, List.range_succ, List.map_append]
  rfl

theorem cosTaylor_length (N : ℕ) : (cosTaylor K N).length = N := by
  rw [cosTaylor, List.length_map, List.length_range]

theorem sinTaylor_length (N : ℕ) : (sinTaylor K N).length = N := by
  rw [sinTaylor, List.length_map, List.length_range]

theorem cosTaylor_cast (N : ℕ) : (cosTaylor ℚ N).map ((↑) : ℚ → ℝ) = cosTaylor ℝ N := by
  rw [cosTaylor, cosTaylor, List.map_map]
  refine List.map_congr_left fun j _ => ?_
  rw [Function.comp_apply]
  push_cast
  rfl

theorem sinTaylor_cast (N : ℕ) : (sinTaylor ℚ N).map ((↑) : ℚ → ℝ) = sinTaylor ℝ N := by
  rw [sinTaylor, sinTaylor, List.map_map]
  refine List.map_congr_left fun j _ => ?_
  rw [Function.comp_apply]
  push_cast
  rfl

end Taylor

/-! ## The exponential series -/

/-- The size of the first term that `2 * N` terms of the exponential series leave out. -/
noncomputable def taylorTerm (N : ℕ) (y : ℝ) : ℝ := |y| ^ (2 * N) / (2 * N).factorial

/-- The even terms of the series of `exp (y * I)` are the cosine's, the odd ones the sine's. -/
theorem exp_partialSum (y : ℝ) (N : ℕ) :
    ∑ m ∈ range (2 * N), ((y : ℂ) * Complex.I) ^ m / (m.factorial : ℂ) =
      ((polyEval (cosTaylor ℝ N) (y * y) : ℝ) : ℂ) +
        ((y * polyEval (sinTaylor ℝ N) (y * y) : ℝ) : ℂ) * Complex.I := by
  induction N with
  | zero => simp [cosTaylor, sinTaylor, polyEval]
  | succ N ih =>
    have heven : ((y : ℂ) * Complex.I) ^ (2 * N) = (-1) ^ N * ((y : ℂ) * y) ^ N := by
      rw [pow_mul, mul_pow, Complex.I_sq, ← mul_pow]
      ring
    have hodd : ((y : ℂ) * Complex.I) ^ (2 * N + 1) =
        (-1) ^ N * ((y : ℂ) * y) ^ N * (y * Complex.I) := by
      rw [pow_succ, heven]
    rw [show 2 * (N + 1) = 2 * N + 1 + 1 by ring, sum_range_succ, sum_range_succ, ih, heven, hodd,
      cosTaylor_succ, sinTaylor_succ, polyEval_concat, polyEval_concat, cosTaylor_length,
      sinTaylor_length]
    push_cast
    ring

theorem exp_sub_taylor_le {y : ℝ} {N : ℕ} (h : 2 * |y| ≤ 2 * N + 1) :
    ‖Complex.exp (y * Complex.I) - (((polyEval (cosTaylor ℝ N) (y * y) : ℝ) : ℂ) +
      ((y * polyEval (sinTaylor ℝ N) (y * y) : ℝ) : ℂ) * Complex.I)‖ ≤ taylorTerm N y * 2 := by
  have hnorm : ‖(y : ℂ) * Complex.I‖ = |y| := by
    rw [norm_mul, Complex.norm_I, mul_one, Complex.norm_real, Real.norm_eq_abs]
  have hle : ‖(y : ℂ) * Complex.I‖ / (2 * N).succ ≤ 1 / 2 := by
    rw [hnorm, div_le_div_iff₀ (by positivity) two_pos]
    push_cast
    linarith
  have hexp := Complex.exp_bound' hle
  rwa [exp_partialSum, hnorm] at hexp

theorem abs_cos_sub_taylor_le {y : ℝ} {N : ℕ} (h : 2 * |y| ≤ 2 * N + 1) :
    |polyEval (cosTaylor ℝ N) (y * y) - Real.cos y| ≤ taylorTerm N y * 2 := by
  have hre := (Complex.abs_re_le_norm _).trans (exp_sub_taylor_le h)
  rw [abs_sub_comm]
  simpa [Complex.exp_ofReal_mul_I_re] using hre

theorem abs_sin_sub_taylor_le {y : ℝ} {N : ℕ} (h : 2 * |y| ≤ 2 * N + 1) :
    |y * polyEval (sinTaylor ℝ N) (y * y) - Real.sin y| ≤ taylorTerm N y * 2 := by
  have him := (Complex.abs_im_le_norm _).trans (exp_sub_taylor_le h)
  rw [abs_sub_comm]
  simpa [Complex.exp_ofReal_mul_I_im] using him

theorem taylorTerm_le {y b : ℝ} (N : ℕ) (h : |y| ≤ b) :
    taylorTerm N y ≤ b ^ (2 * N) / (2 * N).factorial := by
  unfold taylorTerm
  gcongr

/-! ## Certified approximations -/

section Certified

variable {p : List ℚ} {ε r y : ℚ} {n N : ℕ}

/-- A certified bound on the difference of two polynomials, read over the reals. -/
theorem abs_polyEval_sub_le {q : List ℚ} (hchk : checkBound (polySub p q) ε r n 0 = true)
    (hn : n ≠ 0) (hy : y * y ≤ 2 * r * n) :
    |((polyEval p (y * y) : ℚ) : ℝ) - polyEval (q.map ((↑) : ℚ → ℝ)) ((y : ℝ) * y)| ≤ ε := by
  have hdiff := checkBound_sound _ ε r n 0 hchk (mul_self_nonneg y) (by rwa [zero_add]) hn
  rw [← Rat.cast_mul, ← polyEval_cast, ← Rat.cast_sub, ← polyEval_sub]
  exact_mod_cast hdiff

theorem abs_cos_sub_le (hchk : checkBound (polySub p (cosTaylor ℚ N)) ε r n 0 = true)
    (hn : n ≠ 0) (hy : y * y ≤ 2 * r * n) (hN : 2 * |(y : ℝ)| ≤ 2 * N + 1) :
    |((polyEval p (y * y) : ℚ) : ℝ) - Real.cos y| ≤ ε + taylorTerm N y * 2 := by
  have hreal := abs_polyEval_sub_le hchk hn hy
  rw [cosTaylor_cast] at hreal
  calc |((polyEval p (y * y) : ℚ) : ℝ) - Real.cos y|
      ≤ |((polyEval p (y * y) : ℚ) : ℝ) - polyEval (cosTaylor ℝ N) ((y : ℝ) * y)| +
          |polyEval (cosTaylor ℝ N) ((y : ℝ) * y) - Real.cos y| := abs_sub_le _ _ _
    _ ≤ ε + taylorTerm N y * 2 := add_le_add hreal (abs_cos_sub_taylor_le hN)

theorem abs_sin_sub_le (hchk : checkBound (polySub p (sinTaylor ℚ N)) ε r n 0 = true)
    (hn : n ≠ 0) (hy : y * y ≤ 2 * r * n) (hN : 2 * |(y : ℝ)| ≤ 2 * N + 1) :
    |((y * polyEval p (y * y) : ℚ) : ℝ) - Real.sin y| ≤ |(y : ℝ)| * ε + taylorTerm N y * 2 := by
  have hreal := abs_polyEval_sub_le hchk hn hy
  rw [sinTaylor_cast] at hreal
  have hscaled : |((y * polyEval p (y * y) : ℚ) : ℝ) -
      y * polyEval (sinTaylor ℝ N) ((y : ℝ) * y)| ≤ |(y : ℝ)| * ε := by
    rw [Rat.cast_mul y, ← mul_sub, abs_mul]
    exact mul_le_mul_of_nonneg_left hreal (abs_nonneg _)
  calc |((y * polyEval p (y * y) : ℚ) : ℝ) - Real.sin y|
      ≤ |((y * polyEval p (y * y) : ℚ) : ℝ) - y * polyEval (sinTaylor ℝ N) ((y : ℝ) * y)| +
          |y * polyEval (sinTaylor ℝ N) ((y : ℝ) * y) - Real.sin y| := abs_sub_le _ _ _
    _ ≤ |(y : ℝ)| * ε + taylorTerm N y * 2 := add_le_add hscaled (abs_sin_sub_taylor_le hN)

end Certified

end ControlLib
