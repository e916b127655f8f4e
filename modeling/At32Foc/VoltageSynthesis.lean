import At32Foc.ParkTransform

/-!
# End-to-end voltage synthesis

A voltage command goes through `inv_park_transform` and `SVpwm`; the bridge turns
the duties into phase voltages; `clarke_transform` and `park_transform` bring them
back to the d/q frame.  The constants of the chain do not match exactly
(`SQRT3 = 1.732`, `SQRT3_2 = 0.866`, polynomial sine and cosine), and the result is
the command up to the over-modulation scale and a relative error of `1e-4`
(`synthesized_near`):

* the α component comes back as `k * alphaGain` times the command and the β
  component as `k` times the command (`phaseVoltages_alpha`, `phaseVoltages_beta`);
* a rotation by an angle and back multiplies by `sin² + cos²` (`rotate_back_d`,
  `rotate_back_q`), which `fastSin_sq_add_fastCos_sq` keeps near one.
-/

namespace At32Foc

open ControlLib

/-! ## The chain -/

/-- The phase voltages of the bridge, each less the mean of the three. -/
def phaseVoltages (s : SVpwmState) : ℚ × ℚ :=
  let mean := (UDC * s.Ta + UDC * s.Tb + UDC * s.Tc) / 3
  (UDC * s.Ta - mean, UDC * s.Tb - mean)

/-- The duties for the voltage command of a record. -/
def modulate (pFOC : FOCState ℚ) (s : SVpwmState) : SVpwmState :=
  svpwm s (invParkTransform pFOC).Ualpha (invParkTransform pFOC).Ubeta

/-- The record after measuring the phase voltages as if they were currents, without the
sign flip of `clarke_transform`. -/
def synthesize (pFOC : FOCState ℚ) (s : SVpwmState) : FOCState ℚ :=
  let V := phaseVoltages (modulate pFOC s)
  parkTransform (clarkeAlphaBeta { pFOC with Ia := V.1, Ib := V.2 })

/-! ## Stationary frame -/

/-- What the α component is multiplied by: `SQRT3²` is not quite 3. -/
def alphaGain : ℚ := SQRT3 * SQRT3 / 3

section Modulated

variable {s : SVpwmState} {Ualpha Ubeta : ℚ} (hTs : s.Ts = 1) (hU : ¬ (Ualpha = 0 ∧ Ubeta = 0))

include hTs hU

theorem phaseVoltages_alpha : (phaseVoltages (svpwm s Ualpha Ubeta)).1 =
    (svpwm s Ualpha Ubeta).scale * alphaGain * Ualpha := by
  have h := (svpwm_modulated s Ualpha Ubeta (hTs ▸ one_pos) hU).duties
  rw [phaseVoltages, h.phase_a UDC, svpwm_u2, svpwm_u3, hTs]
  norm_num [alphaGain, UDC, SQRT3, SQRT3_2, _1_2]
  ring

theorem phaseVoltages_beta : ((phaseVoltages (svpwm s Ualpha Ubeta)).1 +
    2 * (phaseVoltages (svpwm s Ualpha Ubeta)).2) / SQRT3 =
      (svpwm s Ualpha Ubeta).scale * Ubeta := by
  have h := (svpwm_modulated s Ualpha Ubeta (hTs ▸ one_pos) hU).duties
  rw [phaseVoltages, h.phase_a UDC, h.phase_b UDC, svpwm_u1, svpwm_u2, svpwm_u3, hTs]
  norm_num [UDC, SQRT3, SQRT3_2, _1_2]
  ring

end Modulated

/-! ## Rotating frame -/

section Rotation

variable (d q s c k r : ℚ)

theorem rotate_back_d : k * r * (-q * s + d * c) * c + k * (q * c + d * s) * s - k * d =
    k * (d * (s ^ 2 + c ^ 2 - 1) - (1 - r) * ((-q * s + d * c) * c)) := by ring

theorem rotate_back_q : -(k * r * (-q * s + d * c)) * s + k * (q * c + d * s) * c - k * q =
    k * (q * (s ^ 2 + c ^ 2 - 1) + (1 - r) * ((-q * s + d * c) * s)) := by ring

variable {d q s c k}

/-- A component of the command, rotated back. -/
theorem rotated_abs_le {t : ℚ} (hs : |s| ≤ 1 + 1e-6) (hc : |c| ≤ 1 + 1e-6) (ht : |t| ≤ 1 + 1e-6) :
    |(-q * s + d * c) * t| ≤ (1 + 1e-5) * (|d| + |q|) := by
  have h1 : |-q * s + d * c| ≤ (1 + 1e-6) * (|d| + |q|) := by
    calc |-q * s + d * c| ≤ |-q * s| + |d * c| := abs_add_le _ _
      _ = |q| * |s| + |d| * |c| := by rw [abs_mul, abs_neg, abs_mul]
      _ ≤ |q| * (1 + 1e-6) + |d| * (1 + 1e-6) := by gcongr
      _ = (1 + 1e-6) * (|d| + |q|) := by ring
  calc |(-q * s + d * c) * t| = |-q * s + d * c| * |t| := abs_mul _ _
    _ ≤ (1 + 1e-6) * (|d| + |q|) * (1 + 1e-6) := by gcongr
    _ = (1 + 1e-6) * (1 + 1e-6) * (|d| + |q|) := by ring
    _ ≤ (1 + 1e-5) * (|d| + |q|) := by gcongr; norm_num

/-- The two errors of the chain together, for a component `x` of the command and a rotated
component `y`. -/
theorem synthesis_abs_le {x y N δ : ℚ} (hk : 0 < k ∧ k ≤ 1) (hδ : |δ| ≤ 6e-5)
    (hN : |N| ≤ 2e-6) (hx : |x| ≤ |d| + |q|) (hy : |y| ≤ (1 + 1e-5) * (|d| + |q|)) :
    |k * (x * N + δ * y)| ≤ 1e-4 * (|d| + |q|) := by
  have hk' : |k| ≤ 1 := by rw [abs_of_pos hk.1]; exact hk.2
  have h0 : 0 ≤ |d| + |q| := add_nonneg (abs_nonneg d) (abs_nonneg q)
  calc |k * (x * N + δ * y)| = |k| * |x * N + δ * y| := abs_mul _ _
    _ ≤ 1 * (|x * N| + |δ * y|) := by gcongr; exact abs_add_le _ _
    _ = |x| * |N| + |δ| * |y| := by rw [one_mul, abs_mul, abs_mul]
    _ ≤ (|d| + |q|) * 2e-6 + 6e-5 * ((1 + 1e-5) * (|d| + |q|)) := by gcongr
    _ ≤ 1e-4 * (|d| + |q|) := by linarith

end Rotation

/-! ## Result -/

theorem alphaGain_near : |1 - alphaGain| ≤ 6e-5 := by
  norm_num [alphaGain, SQRT3, abs_le]

/-- **Voltage synthesis.**  Every nonzero command comes back scaled by one factor in
`(0, 1]`, which is 1 without over-modulation, and within `1e-4` of its size. -/
theorem synthesized_near (pFOC : FOCState ℚ) (s : SVpwmState) (hTs : s.Ts = 1)
    (hU : (pFOC.Ud, pFOC.Uq) ≠ (0, 0)) (hθ : 0 ≤ pFOC.corrAngle ∧ pFOC.corrAngle ≤ _2PI) :
    let r := modulate pFOC s
    ∃ k : ℚ, (0 < k ∧ k ≤ 1) ∧ (max |r.u1| (max |r.u2| |r.u3|) ≤ s.Ts → k = 1) ∧
      |(synthesize pFOC s).Id - k * pFOC.Ud| ≤ 1e-4 * (|pFOC.Ud| + |pFOC.Uq|) ∧
      |(synthesize pFOC s).Iq - k * pFOC.Uq| ≤ 1e-4 * (|pFOC.Ud| + |pFOC.Uq|) := by
  intro r
  have hne := invPark_ne_zero hU hθ
  have hrTs : r.Ts = s.Ts := svpwm_Ts s _ _
  have hTs' : 0 < r.Ts := by rw [hrTs, hTs]; exact one_pos
  have hk : 0 < r.scale ∧ r.scale ≤ 1 := ⟨modScale_pos hTs', modScale_le_one hTs'⟩
  have hN := fastSin_sq_add_fastCos_sq hθ.1 hθ.2
  have hs := fastSin_abs_le hθ.1 hθ.2
  have hc := fastCos_abs_le hθ.1 hθ.2
  have ha : (phaseVoltages r).1 = r.scale * alphaGain * (invParkTransform pFOC).Ualpha :=
    phaseVoltages_alpha hTs hne
  have hb : ((phaseVoltages r).1 + 2 * (phaseVoltages r).2) / SQRT3 =
      r.scale * (invParkTransform pFOC).Ubeta := phaseVoltages_beta hTs hne
  have hId : (synthesize pFOC s).Id = (phaseVoltages r).1 * fastCos pFOC.corrAngle +
      ((phaseVoltages r).1 + 2 * (phaseVoltages r).2) / SQRT3 * fastSin pFOC.corrAngle := rfl
  have hIq : (synthesize pFOC s).Iq = -(phaseVoltages r).1 * fastSin pFOC.corrAngle +
      ((phaseVoltages r).1 + 2 * (phaseVoltages r).2) / SQRT3 * fastCos pFOC.corrAngle := rfl
  refine ⟨r.scale, hk, fun hm => ?_, ?_, ?_⟩
  · exact modScale_of_le (hrTs ▸ hm)
  · rw [hId, hb, ha]
    simp only [invParkTransform]
    rw [rotate_back_d, sub_eq_add_neg, ← mul_neg]
    refine synthesis_abs_le hk alphaGain_near hN (le_add_of_nonneg_right (abs_nonneg _)) ?_
    rw [abs_neg]
    exact rotated_abs_le hs hc hc
  · rw [hIq, hb, ha]
    simp only [invParkTransform]
    rw [rotate_back_q]
    exact synthesis_abs_le hk alphaGain_near hN (le_add_of_nonneg_left (abs_nonneg _))
      (rotated_abs_le hs hc hs)

theorem synthesized_near_unsaturated :
    |(synthesize { Motor_1 with Ud := 3, Uq := 1, corrAngle := 1 } svpwmInit).Id - 1 * 3| ≤
      1e-4 * (|3| + |1|) := by
  obtain ⟨k, -, hone, hd, -⟩ := synthesized_near { Motor_1 with Ud := 3, Uq := 1, corrAngle := 1 }
    svpwmInit (by norm_num [svpwmInit]) (by decide) (by norm_num [_2PI])
  rwa [hone (by decide +kernel)] at hd

end At32Foc
