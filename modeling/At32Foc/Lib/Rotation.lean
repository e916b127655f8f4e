import Mathlib

/-!
# Rotations of the plane with an approximate sine and cosine

`rotate s c` turns a vector with whatever stands for sine and cosine, `rotateBack s c` turns
it the other way.  They need not be a true sine and cosine: going there and back, in either
order, multiplies by `s ^ 2 + c ^ 2`, and so does each of the two on the squared length.
-/

namespace ControlLib

variable {K : Type*} [CommRing K]

def rotate (s c : K) (v : K × K) : K × K := (-v.2 * s + v.1 * c, v.2 * c + v.1 * s)

def rotateBack (s c : K) (v : K × K) : K × K := (v.1 * c + v.2 * s, -v.1 * s + v.2 * c)

/-- Squared length. -/
def lengthSq (v : K × K) : K := v.1 ^ 2 + v.2 ^ 2

theorem rotateBack_rotate (s c : K) (v : K × K) :
    rotateBack s c (rotate s c v) = (s ^ 2 + c ^ 2) • v := by
  ext
  · show (-v.2 * s + v.1 * c) * c + (v.2 * c + v.1 * s) * s = (s ^ 2 + c ^ 2) * v.1
    ring
  · show -(-v.2 * s + v.1 * c) * s + (v.2 * c + v.1 * s) * c = (s ^ 2 + c ^ 2) * v.2
    ring

theorem rotate_rotateBack (s c : K) (v : K × K) :
    rotate s c (rotateBack s c v) = (s ^ 2 + c ^ 2) • v := by
  ext
  · show -(-v.1 * s + v.2 * c) * s + (v.1 * c + v.2 * s) * c = (s ^ 2 + c ^ 2) * v.1
    ring
  · show (-v.1 * s + v.2 * c) * c + (v.1 * c + v.2 * s) * s = (s ^ 2 + c ^ 2) * v.2
    ring

theorem lengthSq_rotate (s c : K) (v : K × K) :
    lengthSq (rotate s c v) = (s ^ 2 + c ^ 2) * lengthSq v := by
  simp only [lengthSq, rotate]
  ring

theorem lengthSq_rotateBack (s c : K) (v : K × K) :
    lengthSq (rotateBack s c v) = (s ^ 2 + c ^ 2) * lengthSq v := by
  simp only [lengthSq, rotateBack]
  ring

section Ordered

variable [LinearOrder K] [IsStrictOrderedRing K]

theorem lengthSq_nonneg (v : K × K) : 0 ≤ lengthSq v := add_nonneg (sq_nonneg _) (sq_nonneg _)

theorem eq_zero_of_lengthSq_eq_zero {v : K × K} (h : lengthSq v = 0) : v = 0 := by
  obtain ⟨h1, h2⟩ := (add_eq_zero_iff_of_nonneg (sq_nonneg v.1) (sq_nonneg v.2)).mp h
  exact Prod.ext (pow_eq_zero_iff two_ne_zero |>.mp h1) (pow_eq_zero_iff two_ne_zero |>.mp h2)

theorem abs_le_of_lengthSq_le {v : K × K} {b : K} (hb : 0 ≤ b) (h : lengthSq v ≤ b ^ 2) :
    |v.1| ≤ b ∧ |v.2| ≤ b := by
  constructor
  · exact abs_le_of_sq_le_sq ((le_add_of_nonneg_right (sq_nonneg _)).trans h) hb
  · exact abs_le_of_sq_le_sq ((le_add_of_nonneg_left (sq_nonneg _)).trans h) hb

theorem lengthSq_le {v : K × K} {a b : K} (ha : |v.1| ≤ a) (hb : |v.2| ≤ b) :
    lengthSq v ≤ a ^ 2 + b ^ 2 := by
  have h1 : v.1 ^ 2 ≤ a ^ 2 := sq_le_sq' (abs_le.mp ha).1 (abs_le.mp ha).2
  have h2 : v.2 ^ 2 ≤ b ^ 2 := sq_le_sq' (abs_le.mp hb).1 (abs_le.mp hb).2
  exact add_le_add h1 h2

end Ordered

end ControlLib
