import At32Foc.Lib.Circle
import At32Foc.SingleMotor

/-!
# The electrical zero

`angle_init` averages ten electrical angles.  Each is wrapped into `[0, _2PI)` by
`Angle_limit`, and the average is that of plain numbers, so it is right when the
arc of the samples stays off the seam between `_2PI` and 0, and up to half a turn
off when the arc crosses it:

    (ten samples within δ of θ → zero within δ of θ) ↔ δ < 0 ∨ (δ ≤ θ ∧ θ + δ < _2PI)

(`zero_calibrated_iff`).
-/

namespace At32Foc

open ControlLib

/-! ## The samples -/

/-- The electrical angle of an encoder reading. -/
def sampleAngle (m : Motor) (hw : Inputs) : ℚ := angleLimit (hw.angle m * POLE_PAIRS)

/-- The ten values of `elec_angle` that `angle_init` adds up. -/
def angleInitSamples (m : Motor) (hw : ℕ → Inputs) : List ℚ :=
  (List.range 10).map fun i => sampleAngle m (hw (i + 1))

theorem electricalAngle_elecAngle {m : Motor} (hw : Inputs) {pFOC : FOCState ℚ}
    (h : WiredFor m pFOC) : (electricalAngle hw pFOC).elecAngle = sampleAngle m hw := by
  rw [electricalAngle_eq hw h.1, sampleAngle]

/-- The accumulator of the loop is the sum of the samples so far. -/
theorem angleInitLoop_sum {m : Motor} (hw : ℕ → Inputs) (n : ℕ) {pFOC : FOCState ℚ}
    (h : WiredFor m pFOC) :
    (angleInitLoop hw n pFOC).2 = ((List.range n).map fun i => sampleAngle m (hw i)).sum := by
  induction n with
  | zero => rfl
  | succ n ih =>
    have hw' := (angleInitLoop_same hw n pFOC).wired h
    rw [angleInitLoop_succ, List.range_succ, List.map_append, List.sum_append, ← ih]
    simp only [angleInitStep, electricalAngle_elecAngle (hw n) hw', List.map_cons, List.map_nil,
      List.sum_cons, List.sum_nil, add_zero]

theorem electricalAngle_zero (hw : Inputs) (pFOC : FOCState ℚ) :
    (electricalAngle hw pFOC).zero = pFOC.zero := by
  unfold electricalAngle
  split_ifs <;> rfl

/-- `angle_init` stores the mean of its samples. -/
theorem angleInitZero_zero {m : Motor} (hw : ℕ → Inputs) {pFOC : FOCState ℚ}
    (h : WiredFor m pFOC) : (angleInitZero hw pFOC).zero = mean (angleInitSamples m hw) := by
  have h0 := (electricalAngle_same (hw 0) pFOC).wired h
  have hs := angleInitLoop_sum (fun i => hw (i + 1)) 10 h0
  rw [angleInitZero]
  generalize angleInitLoop (fun i => hw (i + 1)) 10 (electricalAngle (hw 0) pFOC) = r at hs ⊢
  calc (getCorrectedElectricalAngle (hw 11) (angleInitMean 10 r)).zero
      = (angleInitMean 10 r).zero := electricalAngle_zero (hw 11) _
    _ = r.2 / (10 : ℕ) := rfl
    _ = mean (angleInitSamples m hw) := by
      rw [hs, mean, angleInitSamples, List.length_map, List.length_range]

theorem angleInit_zero {m : Motor} (hw : ℕ → Inputs) {pFOC : FOCState ℚ} (tmr : Timers)
    (h : WiredFor m pFOC) : (angleInit hw pFOC tmr).1.zero = mean (angleInitSamples m hw) :=
  angleInitZero_zero hw (limitPhases_wired (strongDragVoltages_wired h))

theorem sampleAngle_mem (m : Motor) (hw : Inputs) :
    0 ≤ sampleAngle m hw ∧ sampleAngle m hw < _2PI := angleLimit_mem _

/-! ## Samples on both sides of the seam -/

/-- Readings that put the samples alternately at `x` and `y`. -/
def alternating (x y : ℚ) : ℕ → Inputs := fun k =>
  .both ⟨0, 0⟩ ((if k % 2 = 0 then x else y) / POLE_PAIRS)

theorem angleInitSamples_alternating (m : Motor) {x y : ℚ} (hx : 0 ≤ x ∧ x < _2PI)
    (hy : 0 ≤ y ∧ y < _2PI) :
    angleInitSamples m (alternating x y) = [y, x, y, x, y, x, y, x, y, x] := by
  have h : ∀ z : ℚ, 0 ≤ z ∧ z < _2PI →
      sampleAngle m (.both ⟨0, 0⟩ (z / POLE_PAIRS)) = z := by
    intro z hz
    rw [sampleAngle, Inputs.angle_both, div_mul_cancel₀ z (by norm_num [POLE_PAIRS]),
      angleLimit_of_mem hz.1 hz.2]
  simp [angleInitSamples, alternating, List.range_succ, h x hx, h y hy]

/-- Half of the samples at `c`, half a turn and `d` further: the mean is half a turn off. -/
theorem mean_alternating (c d s : ℚ) :
    mean [c + d + s * _2PI, c, c + d + s * _2PI, c, c + d + s * _2PI, c, c + d + s * _2PI, c,
      c + d + s * _2PI, c] = c + d / 2 + s * (_2PI / 2) := by
  simp only [mean, List.sum_cons, List.sum_nil, List.length_cons, List.length_nil]
  push_cast
  ring

/-! ## Result -/

/-- An arc that crosses the seam has samples whose mean is out of reach. -/
theorem zero_off_of_seam {m : Motor} {pFOC : FOCState ℚ} (tmr : Timers) (h : WiredFor m pFOC)
    {θ d δ s : ℚ} (hθ : 0 ≤ θ ∧ θ < _2PI) (hδ : δ < _PI / 2) (hd : |d| ≤ δ)
    (hs : s = 1 ∨ s = -1) (hy : 0 ≤ θ + d + s * _2PI ∧ θ + d + s * _2PI < _2PI) :
    ∃ hw : ℕ → Inputs, (∀ e ∈ angleInitSamples m hw, circDist _2PI e θ ≤ δ) ∧
      δ < circDist _2PI (angleInit hw pFOC tmr).1.zero θ := by
  have hP : _PI / 2 = _2PI / 4 := by norm_num [_PI, _2PI]
  refine ⟨alternating θ (θ + d + s * _2PI), ?_, ?_⟩
  · rw [angleInitSamples_alternating m hθ hy]
    have h0 : circDist _2PI θ θ ≤ δ := by
      refine (circDist_le_iff _2PI_pos θ θ δ).mpr ⟨0, ?_⟩
      simpa using (abs_nonneg d).trans hd
    have h1 : circDist _2PI (θ + d + s * _2PI) θ ≤ δ := by
      rw [circDist_le_iff _2PI_pos]
      rcases hs with rfl | rfl
      · exact ⟨1, by push_cast; rw [show θ + d + 1 * _2PI - θ - _2PI * 1 = d by ring]; exact hd⟩
      · exact ⟨-1, by push_cast; rw [show θ + d + -1 * _2PI - θ - _2PI * -1 = d by ring]; exact hd⟩
    intro e he
    simp only [List.mem_cons, List.not_mem_nil, or_false] at he
    rcases he with rfl | rfl | rfl | rfl | rfl | rfl | rfl | rfl | rfl | rfl <;> assumption
  · rw [angleInit_zero _ tmr h, angleInitSamples_alternating m hθ hy, mean_alternating]
    exact circDist_half_turn _2PI_pos (hP ▸ hδ) hd s hs

/-- **Zero calibration.**  For rotors around `θ`, every ten samples within `δ` give a zero
within `δ` exactly when the arc of radius `δ` does not reach the seam. -/
theorem zero_calibrated_iff (m : Motor) (pFOC : FOCState ℚ) (tmr : Timers) (θ δ : ℚ)
    (h : WiredFor m pFOC) (hθ : 0 ≤ θ ∧ θ < _2PI) (hδ : δ < _PI / 2) :
    (∀ hw : ℕ → Inputs, (∀ e ∈ angleInitSamples m hw, circDist _2PI e θ ≤ δ) →
        circDist _2PI (angleInit hw pFOC tmr).1.zero θ ≤ δ) ↔
      δ < 0 ∨ (δ ≤ θ ∧ θ + δ < _2PI) := by
  constructor
  · intro hall
    by_contra hcon
    rw [not_or, not_lt, not_and_or, not_le, not_lt] at hcon
    obtain ⟨h0, hseam⟩ := hcon
    have hP : δ < _2PI := by unfold _PI at hδ; unfold _2PI; linarith
    have hno : ¬ ∃ hw : ℕ → Inputs, (∀ e ∈ angleInitSamples m hw, circDist _2PI e θ ≤ δ) ∧
        δ < circDist _2PI (angleInit hw pFOC tmr).1.zero θ := by
      rintro ⟨hw, hin, hout⟩
      exact absurd (hall hw hin) (not_le.mpr hout)
    rcases hseam with hlow | hhigh
    · exact hno (zero_off_of_seam tmr h (d := -δ) hθ hδ (by rw [abs_neg, abs_of_nonneg h0])
        (Or.inl rfl) ⟨by linarith [hθ.1], by linarith⟩)
    · exact hno (zero_off_of_seam tmr h (d := δ) hθ hδ (abs_of_nonneg h0).le
        (Or.inr rfl) ⟨by linarith, by linarith [hθ.2]⟩)
  · intro hcond hw hin
    have hne : angleInitSamples m hw ≠ [] := by simp [angleInitSamples]
    have hmem : ∀ e ∈ angleInitSamples m hw, 0 ≤ e ∧ e < _2PI := by
      intro e he
      obtain ⟨i, -, rfl⟩ := List.mem_map.mp he
      exact sampleAngle_mem m _
    rw [angleInit_zero hw tmr h]
    rcases hcond with hneg | harc
    · obtain ⟨e, he⟩ := List.exists_mem_of_ne_nil _ hne
      exact absurd ((circDist_nonneg _2PI e θ).trans (hin e he)) (not_le.mpr hneg)
    · exact circDist_mean_le _2PI_pos hne hmem harc hin

theorem zero_calibrated_iff_at_three :
    circDist _2PI (angleInit (alternating 2 4) Motor_1 ⟨tmrInit, tmrInit⟩).1.zero 3 ≤ 1 := by
  refine (zero_calibrated_iff .M1 Motor_1 ⟨tmrInit, tmrInit⟩ 3 1 ⟨rfl, rfl⟩ (by norm_num [_2PI])
    (by norm_num [_PI])).mpr (Or.inr (by norm_num [_2PI])) (alternating 2 4) ?_
  decide +kernel

/-- Encoder frames 0 and 16383, one step apart at angle 0: all samples are within 0.005 of
0, and the stored zero is more than 3 away. -/
theorem zero_off_by_half_turn :
    let hw : ℕ → Inputs := fun k => .both ⟨0, 0⟩
      (if k % 2 = 0 then mt6701GetAngle 0 0 0 else mt6701GetAngle 255 252 0)
    (∀ e ∈ angleInitSamples .M1 hw, (0 ≤ e ∧ e < _2PI) ∧ circDist _2PI e 0 ≤ 0.005) ∧
      3 < circDist _2PI (angleInit hw Motor_1 ⟨tmrInit, tmrInit⟩).1.zero 0 := by
  decide +kernel

end At32Foc
