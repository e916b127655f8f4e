import Mathlib

/-!
# Certified bounds for a polynomial on an interval

Polynomials are coefficient lists, constant coefficient first.  On an interval of
half-width `r` around `c` the polynomial in `h = x - c` is computed exactly
(`polyShift`), and the sum of its absolute coefficients at `r` (`polyAbs`) bounds
it.  `checkBound` does this for `n` adjacent intervals and compares with `ε`, so a
bound on a long interval is one computation over the coefficients
(`checkBound_sound`).
-/

namespace ControlLib

variable {K : Type*} [Field K] [LinearOrder K] [IsStrictOrderedRing K]

/-- Horner evaluation. -/
def polyEval : List K → K → K
  | [], _ => 0
  | a :: p, x => a + x * polyEval p x

def polyAdd : List K → List K → List K
  | [], q => q
  | p, [] => p
  | a :: p, b :: q => (a + b) :: polyAdd p q

def polyMul : List K → List K → List K
  | [], _ => []
  | a :: p, q => polyAdd (q.map (a * ·)) (0 :: polyMul p q)

/-- Coefficients of `h ↦ p (c + h)`. -/
def polyShift (c : K) : List K → List K
  | [] => []
  | a :: p => polyAdd [a] (polyMul [c, 1] (polyShift c p))

/-- Sum of the absolute coefficients, weighted by the powers of `r`. -/
def polyAbs : List K → K → K
  | [], _ => 0
  | a :: p, r => |a| + r * polyAbs p r

/-- On each of `n` intervals of half-width `r`, starting at `lo`, the bound `ε` is certified. -/
def checkBound (p : List K) (ε r : K) : ℕ → K → Bool
  | 0, _ => true
  | n + 1, lo => decide (polyAbs (polyShift (lo + r) p) r ≤ ε) && checkBound p ε r n (lo + 2 * r)

omit [LinearOrder K] [IsStrictOrderedRing K] in
theorem polyEval_add (p q : List K) (x : K) :
    polyEval (polyAdd p q) x = polyEval p x + polyEval q x := by
  induction p, q using polyAdd.induct with
  | case1 q => simp [polyAdd, polyEval]
  | case2 p hp => cases p with
    | nil => exact absurd rfl hp
    | cons a p => simp [polyAdd, polyEval]
  | case3 a p b q ih => simp only [polyAdd, polyEval, ih]; ring

omit [LinearOrder K] [IsStrictOrderedRing K] in
theorem polyEval_map_mul (a : K) (q : List K) (x : K) :
    polyEval (q.map (a * ·)) x = a * polyEval q x := by
  induction q with
  | nil => simp [polyEval]
  | cons b q ih => simp only [List.map_cons, polyEval, ih]; ring

omit [LinearOrder K] [IsStrictOrderedRing K] in
theorem polyEval_mul (p q : List K) (x : K) :
    polyEval (polyMul p q) x = polyEval p x * polyEval q x := by
  induction p with
  | nil => simp [polyMul, polyEval]
  | cons a p ih =>
    simp only [polyMul, polyEval_add, polyEval_map_mul, polyEval, ih]
    ring

omit [LinearOrder K] [IsStrictOrderedRing K] in
theorem polyEval_shift (c : K) (p : List K) (h : K) :
    polyEval (polyShift c p) h = polyEval p (c + h) := by
  induction p with
  | nil => rfl
  | cons a p ih =>
    simp only [polyShift, polyEval_add, polyEval_mul, polyEval, ih]
    ring

theorem abs_polyEval_le (p : List K) {h r : K} (hh : |h| ≤ r) : |polyEval p h| ≤ polyAbs p r := by
  have hr : 0 ≤ r := (abs_nonneg h).trans hh
  induction p with
  | nil => simp [polyEval, polyAbs]
  | cons a p ih =>
    calc |a + h * polyEval p h| ≤ |a| + |h| * |polyEval p h| := by
          rw [← abs_mul]; exact abs_add_le _ _
      _ ≤ |a| + r * polyAbs p r := by gcongr

/-- **Soundness** of the computed bound. -/
theorem checkBound_sound (p : List K) (ε r : K) (n : ℕ) (lo : K)
    (hchk : checkBound p ε r n lo = true) {x : K} (hlo : lo ≤ x) (hhi : x ≤ lo + 2 * r * n)
    (hn : n ≠ 0) : |polyEval p x| ≤ ε := by
  induction n generalizing lo with
  | zero => exact absurd rfl hn
  | succ n ih =>
    simp only [checkBound, Bool.and_eq_true, decide_eq_true_eq] at hchk
    rcases le_or_gt x (lo + 2 * r) with hx | hx
    · have hh : |x - (lo + r)| ≤ r := abs_le.mpr ⟨by linarith, by linarith⟩
      have hval := abs_polyEval_le (polyShift (lo + r) p) hh
      rw [polyEval_shift, add_sub_cancel] at hval
      exact hval.trans hchk.1
    · have hn0 : n ≠ 0 := by
        rintro rfl
        push_cast at hhi
        linarith
      refine ih (lo + 2 * r) hchk.2 hx.le ?_ hn0
      push_cast at hhi
      linarith

end ControlLib
