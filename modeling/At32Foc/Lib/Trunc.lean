import Mathlib

/-!
# Truncating conversion and remainder

The float-to-integer conversion of C rounds toward zero, and `fmod` is the
remainder of the division rounded that way, so it carries the sign of its first
argument.
-/

namespace ControlLib

variable {K : Type*} [Field K] [LinearOrder K] [IsStrictOrderedRing K] [FloorRing K]

/-- `(int)x`: rounded toward zero. -/
def truncToInt (x : K) : ℤ := if 0 ≤ x then ⌊x⌋ else ⌈x⌉

omit [IsStrictOrderedRing K] in
theorem truncToInt_of_nonneg {x : K} (h : 0 ≤ x) : truncToInt x = ⌊x⌋ := if_pos h

theorem truncToInt_mem {x : K} {n : ℤ} (h0 : 0 ≤ x) (hn : x ≤ n) :
    0 ≤ truncToInt x ∧ truncToInt x ≤ n := by
  rw [truncToInt_of_nonneg h0]
  refine ⟨Int.floor_nonneg.mpr h0, ?_⟩
  exact_mod_cast (Int.floor_le x).trans hn

/-- `fmod(x, y)`. -/
def fmod (x y : K) : K := x - y * (truncToInt (x / y) : K)

theorem fmod_nonneg {x y : K} (hy : 0 < y) (hx : 0 ≤ x) : 0 ≤ fmod x y ∧ fmod x y < y := by
  have hq : 0 ≤ x / y := div_nonneg hx hy.le
  have h1 := Int.floor_le (x / y)
  have h2 := Int.lt_floor_add_one (x / y)
  rw [le_div_iff₀ hy] at h1
  rw [div_lt_iff₀ hy] at h2
  rw [fmod, truncToInt_of_nonneg hq]
  constructor <;> linarith

theorem fmod_neg {x y : K} (hy : 0 < y) (hx : x < 0) : -y < fmod x y ∧ fmod x y ≤ 0 := by
  have hq : ¬ 0 ≤ x / y := not_le.mpr (div_neg_of_neg_of_pos hx hy)
  have h1 := Int.le_ceil (x / y)
  have h2 := Int.ceil_lt_add_one (x / y)
  rw [div_le_iff₀ hy] at h1
  rw [← sub_lt_iff_lt_add, lt_div_iff₀ hy] at h2
  rw [fmod, truncToInt, if_neg hq]
  constructor <;> linarith

theorem fmod_of_mem {x y : K} (hx : 0 ≤ x) (hxy : x < y) : fmod x y = x := by
  have hy : 0 < y := hx.trans_lt hxy
  have h : ⌊x / y⌋ = 0 := by
    rw [Int.floor_eq_zero_iff]
    exact ⟨div_nonneg hx hy.le, (div_lt_one hy).mpr hxy⟩
  rw [fmod, truncToInt_of_nonneg (div_nonneg hx hy.le), h]
  simp

/-- The remainder brought into `[0, y)`: a negative one gets one more `y`. -/
def wrap (x y : K) : K := if 0 ≤ fmod x y then fmod x y else fmod x y + y

theorem wrap_mem {x y : K} (hy : 0 < y) : 0 ≤ wrap x y ∧ wrap x y < y := by
  unfold wrap
  rcases le_or_gt 0 x with hx | hx
  · rw [if_pos (fmod_nonneg hy hx).1]
    exact fmod_nonneg hy hx
  · have h := fmod_neg hy hx
    split_ifs with h0
    · exact ⟨h0, by linarith⟩
    · exact ⟨by linarith, by linarith [not_le.mp h0]⟩

theorem wrap_of_mem {x y : K} (hx : 0 ≤ x) (hxy : x < y) : wrap x y = x := by
  rw [wrap, fmod_of_mem hx hxy, if_pos hx]

omit [IsStrictOrderedRing K] in
/-- Wrapping moves a value by whole periods. -/
theorem wrap_eq_sub (x y : K) : ∃ n : ℤ, wrap x y = x - y * n := by
  unfold wrap
  split_ifs
  · exact ⟨truncToInt (x / y), rfl⟩
  · exact ⟨truncToInt (x / y) - 1, by rw [fmod]; push_cast; ring⟩

end ControlLib
