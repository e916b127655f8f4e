import At32Foc.Lib.Rotation

/-!
# Three-phase quantities in the frame of a rotor

The phase quantities of a three-phase machine add up to zero, so two of them determine a
vector in the plane (`clarke`, back with `phases`), and the rotor at the angle `θ` sees that
vector turned back (`park`, and `parkInv`).  Together they recover the vector in the rotor
frame from its phases (`park_clarke_phases`), and an error of `η` on either phase makes one
of at most `2 * η` on either component (`park_clarke_near`).
-/

namespace ControlLib

noncomputable section

/-- The vector of the phases `a` and `b`. -/
def clarke (i : ℝ × ℝ) : ℝ × ℝ := (i.1, (i.1 + (2 : ℕ) * i.2) / √(3 : ℕ))

/-- The phases `a` and `b` of a vector. -/
def phases (v : ℝ × ℝ) : ℝ × ℝ := (v.1, (√(3 : ℕ) * v.2 - v.1) / (2 : ℕ))

def park (θ : ℝ) (v : ℝ × ℝ) : ℝ × ℝ := rotateBack (Real.sin θ) (Real.cos θ) v

def parkInv (θ : ℝ) (v : ℝ × ℝ) : ℝ × ℝ := rotate (Real.sin θ) (Real.cos θ) v

end

theorem clarke_eq (i : ℝ × ℝ) : clarke i = (i.1, (i.1 + 2 * i.2) / √3) := by
  rw [clarke, Nat.cast_ofNat, Nat.cast_ofNat]

theorem phases_eq (v : ℝ × ℝ) : phases v = (v.1, (√3 * v.2 - v.1) / 2) := by
  rw [phases, Nat.cast_ofNat, Nat.cast_ofNat]

theorem clarke_phases (v : ℝ × ℝ) : clarke (phases v) = v := by
  have h3 : √3 ≠ (0 : ℝ) := by positivity
  rw [clarke_eq, phases_eq]
  ext
  · rfl
  · field_simp
    ring

theorem park_parkInv (θ : ℝ) (v : ℝ × ℝ) : park θ (parkInv θ v) = v := by
  rw [park, parkInv, rotateBack_rotate, Real.sin_sq_add_cos_sq, one_smul]

/-- **What the transforms are for.** -/
theorem park_clarke_phases (θ : ℝ) (v : ℝ × ℝ) : park θ (clarke (phases (parkInv θ v))) = v := by
  rw [clarke_phases, park_parkInv]

theorem park_sub (θ : ℝ) (v w : ℝ × ℝ) : park θ v - park θ w = park θ (v - w) := by
  ext <;> simp only [park, rotateBack, Prod.fst_sub, Prod.snd_sub] <;> ring

theorem lengthSq_park (θ : ℝ) (v : ℝ × ℝ) : lengthSq (park θ v) = lengthSq v := by
  rw [park, lengthSq_rotateBack, Real.sin_sq_add_cos_sq, one_mul]

theorem lengthSq_clarke_sub_le {i j : ℝ × ℝ} {η : ℝ} (h1 : |i.1 - j.1| ≤ η)
    (h2 : |i.2 - j.2| ≤ η) : lengthSq (clarke i - clarke j) ≤ (2 * η) ^ 2 := by
  have e : lengthSq (clarke i - clarke j) =
      (i.1 - j.1) ^ 2 + (i.1 - j.1 + 2 * (i.2 - j.2)) ^ 2 / 3 := by
    have h3 : √3 ^ 2 = (3 : ℝ) := Real.sq_sqrt (by norm_num)
    simp only [lengthSq, clarke_eq, Prod.fst_sub, Prod.snd_sub]
    rw [← sub_div, div_pow, h3]
    ring
  have hx : (i.1 - j.1) ^ 2 ≤ η ^ 2 := sq_le_sq' (abs_le.mp h1).1 (abs_le.mp h1).2
  have hy : (i.1 - j.1 + 2 * (i.2 - j.2)) ^ 2 ≤ (3 * η) ^ 2 := by
    rw [abs_le] at h1 h2
    exact sq_le_sq' (by linarith) (by linarith)
  rw [e]
  calc (i.1 - j.1) ^ 2 + (i.1 - j.1 + 2 * (i.2 - j.2)) ^ 2 / 3
      ≤ η ^ 2 + (3 * η) ^ 2 / 3 := add_le_add hx (div_le_div_of_nonneg_right hy (by norm_num))
    _ = (2 * η) ^ 2 := by ring

theorem park_clarke_near (θ : ℝ) {i j : ℝ × ℝ} {η : ℝ} (h1 : |i.1 - j.1| ≤ η)
    (h2 : |i.2 - j.2| ≤ η) :
    |(park θ (clarke i)).1 - (park θ (clarke j)).1| ≤ 2 * η ∧
      |(park θ (clarke i)).2 - (park θ (clarke j)).2| ≤ 2 * η := by
  have hη : 0 ≤ 2 * η := mul_nonneg zero_le_two ((abs_nonneg _).trans h1)
  have hlen : lengthSq (park θ (clarke i) - park θ (clarke j)) ≤ (2 * η) ^ 2 := by
    rw [park_sub, lengthSq_park]
    exact lengthSq_clarke_sub_le h1 h2
  exact abs_le_of_lengthSq_le hη hlen

end ControlLib
