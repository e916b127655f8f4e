import At32Foc.Foc

/-!
# Start-up and running modulation

`strong_drag` reaches the bridge through `inv_clarke_transform` and `setpwm`, one duty for
each phase voltage; the running loop goes through `SVpwm`.  Where the phase voltages lie in
`[0, UDC]`, so that `setpwm` clamps nothing, `SVpwm` is not over-modulated either, and the two
paths put the same voltages between the phases (`startup_agrees`).  Only line-to-line duties
can agree, as `SVpwm` centres its duties.  The match is exact between b and c and up to the
rounding of `SQRT3 * SQRT3_2` in the other two:

    u1 * UDC = Ub - Uc
    u2 * UDC = Ua - Ub - 0.000088 * Ualpha
    u3 * UDC = Uc - Ua + 0.000088 * Ualpha                                 (command_phases)
-/

namespace At32Foc

open ControlLib

/-! ## `setpwm` -/

theorem limit_of_mem {x low high : ℚ} (h0 : low ≤ x) (h1 : x ≤ high) : limit x low high = x := by
  unfold limit
  split_ifs with h h'
  · exact le_antisymm h h1
  · exact le_antisymm h0 h'
  · rfl

/-- The duties `setpwm` passes on. -/
def pwmDuties (pFOC : FOCState ℚ) : ℚ × ℚ × ℚ :=
  let pFOC := limitPhases pFOC
  (limit (pFOC.Ua / UDC) 0.0 1.0, limit (pFOC.Ub / UDC) 0.0 1.0, limit (pFOC.Uc / UDC) 0.0 1.0)

theorem setpwm_eq (pFOC : FOCState ℚ) (tmr : Timers) : setpwm pFOC tmr = (limitPhases pFOC,
    callSetPWM pFOC.SetPWM (pwmDuties pFOC).1 (pwmDuties pFOC).2.1 (pwmDuties pFOC).2.2 tmr) := rfl

/-- Every phase voltage is one the bridge can make. -/
structure FOCState.PhasesInRange (pFOC : FOCState ℚ) : Prop where
  Ua : 0 ≤ pFOC.Ua ∧ pFOC.Ua ≤ UDC
  Ub : 0 ≤ pFOC.Ub ∧ pFOC.Ub ≤ UDC
  Uc : 0 ≤ pFOC.Uc ∧ pFOC.Uc ≤ UDC

theorem limit_voltage {U : ℚ} (h : 0 ≤ U ∧ U ≤ UDC) : limit U 0.0 VOLTAGE_HIGH = U := by
  have e0 : (0.0 : ℚ) = 0 := by norm_num
  exact limit_of_mem (e0.trans_le h.1) h.2

theorem limit_duty {U : ℚ} (h : 0 ≤ U ∧ U ≤ UDC) : limit (U / UDC) 0.0 1.0 = U / UDC := by
  have hU : 0 < UDC := by norm_num [UDC]
  have e0 : (0.0 : ℚ) = 0 := by norm_num
  have e1 : (1 : ℚ) = 1.0 := by norm_num
  exact limit_of_mem (e0.trans_le (div_nonneg h.1 hU.le)) (((div_le_one hU).mpr h.2).trans_eq e1)

theorem limitPhases_eq {pFOC : FOCState ℚ} (h : pFOC.PhasesInRange) : limitPhases pFOC = pFOC := by
  rw [limitPhases, limit_voltage h.Ua, limit_voltage h.Ub, limit_voltage h.Uc]

/-- In range nothing is clamped. -/
theorem pwmDuties_eq {pFOC : FOCState ℚ} (h : pFOC.PhasesInRange) :
    pwmDuties pFOC = (pFOC.Ua / UDC, pFOC.Ub / UDC, pFOC.Uc / UDC) := by
  rw [pwmDuties, limitPhases_eq h, limit_duty h.Ua, limit_duty h.Ub, limit_duty h.Uc]

/-! ## The command of `SVpwm` -/

/-- The line-to-line command in the phase voltages of `inv_clarke_transform`. -/
theorem command_phases (pFOC : FOCState ℚ) {s : SVpwmState} (hTs : s.Ts = 1) :
    let p := invClarkeTransform pFOC
    let r := svpwm s pFOC.Ualpha pFOC.Ubeta
    r.u1 = p.Ub / UDC - p.Uc / UDC ∧
      r.u2 = p.Ua / UDC - p.Ub / UDC - 0.000088 * pFOC.Ualpha / UDC ∧
      r.u3 = p.Uc / UDC - p.Ua / UDC + 0.000088 * pFOC.Ualpha / UDC := by
  intro p r
  simp only [r, p, svpwm_u1, svpwm_u2, svpwm_u3, hTs, invClarkeTransform]
  refine ⟨?_, ?_, ?_⟩ <;> norm_num [SQRT3, SQRT3_2, UDC, _1_2] <;> ring

/-- A command within the phase voltages stays within the period: no over-modulation. -/
theorem command_le {pFOC : FOCState ℚ} {s : SVpwmState} (hTs : s.Ts = 1)
    (h : (invClarkeTransform pFOC).PhasesInRange) :
    let r := svpwm s pFOC.Ualpha pFOC.Ubeta
    max3 |r.u1| |r.u2| |r.u3| ≤ 1 := by
  intro r
  obtain ⟨h1, h2, h3⟩ := command_phases pFOC hTs
  have hα : (invClarkeTransform pFOC).Ua = pFOC.Ualpha + 6 := by
    norm_num [invClarkeTransform, UDC]
  obtain ⟨⟨ha0, ha1⟩, ⟨hb0, hb1⟩, hc0, hc1⟩ := h
  generalize invClarkeTransform pFOC = p at *
  unfold UDC at *
  refine max_le ?_ (max_le ?_ ?_)
  · rw [h1, abs_le]
    constructor <;> linarith
  · rw [h2, abs_le]
    constructor <;> linarith
  · rw [h3, abs_le]
    constructor <;> linarith

/-! ## Result -/

/-- **Two paths.**  For a nonzero command whose phase voltages are in range, `setpwm` clamps
nothing, `SVpwm` is not over-modulated, and their line-to-line duties agree. -/
theorem startup_agrees (pFOC : FOCState ℚ) (s : SVpwmState) (hTs : s.Ts = 1)
    (hU : (pFOC.Ualpha, pFOC.Ubeta) ≠ (0, 0))
    (h : (invClarkeTransform pFOC).PhasesInRange) :
    let p := invClarkeTransform pFOC
    let pwm := pwmDuties p
    let r := svpwm s pFOC.Ualpha pFOC.Ubeta
    (∀ tmr, setpwm p tmr = (p, callSetPWM p.SetPWM pwm.1 pwm.2.1 pwm.2.2 tmr)) ∧
      (limitPhases p = p ∧ pwm = (p.Ua / UDC, p.Ub / UDC, p.Uc / UDC)) ∧ r.sum ≤ r.Ts ∧
      pwm.2.1 - pwm.2.2 = r.Tb - r.Tc ∧
      |(pwm.1 - pwm.2.1) - (r.Ta - r.Tb)| ≤ 0.000088 * |pFOC.Ualpha| / UDC ∧
      |(pwm.2.2 - pwm.1) - (r.Tc - r.Ta)| ≤ 0.000088 * |pFOC.Ualpha| / UDC := by
  intro p pwm r
  have hpos : 0 < s.Ts := hTs ▸ one_pos
  have hU' : ¬ (pFOC.Ualpha = 0 ∧ pFOC.Ubeta = 0) := by simpa [Prod.ext_iff] using hU
  have hrTs : r.Ts = 1 := (svpwm_Ts s _ _).trans hTs
  have hle : max3 |r.u1| |r.u2| |r.u3| ≤ 1 := command_le hTs h
  have hsum : r.sum = max3 |r.u1| |r.u2| |r.u3| := svpwm_sum_eq_max3 s _ _ hpos hU'
  have hd := (svpwm_modulated s pFOC.Ualpha pFOC.Ubeta hpos hU').duties
  have hscale : r.scale = 1 := modScale_of_le (hrTs.symm ▸ hle)
  have hpwm : pwm = (p.Ua / UDC, p.Ub / UDC, p.Uc / UDC) := pwmDuties_eq h
  obtain ⟨h1, h2, h3⟩ := command_phases pFOC hTs
  have hab : r.Ta - r.Tb = r.u2 := hd.ab.trans (by rw [hscale, one_mul])
  have hbc : r.Tb - r.Tc = r.u1 := hd.bc.trans (by rw [hscale, one_mul])
  have hca : r.Tc - r.Ta = r.u3 := hd.ca.trans (by rw [hscale, one_mul])
  have hδ : |0.000088 * pFOC.Ualpha / UDC| = 0.000088 * |pFOC.Ualpha| / UDC := by
    rw [abs_div, abs_mul, abs_of_pos (show (0 : ℚ) < UDC by norm_num [UDC])]
    norm_num
  refine ⟨fun tmr => ?_, ⟨limitPhases_eq h, hpwm⟩, ?_, ?_, ?_, ?_⟩
  · rw [setpwm_eq, limitPhases_eq h]
  · rw [hsum, hrTs]
    exact hle
  · rw [hpwm, hbc]
    exact h1.symm
  · have e : p.Ua / UDC - p.Ub / UDC - r.u2 = 0.000088 * pFOC.Ualpha / UDC := by
      rw [h2]
      ring
    rw [hpwm, hab, e, hδ]
  · have e : p.Uc / UDC - p.Ua / UDC - r.u3 = -(0.000088 * pFOC.Ualpha / UDC) := by
      rw [h3]
      ring
    rw [hpwm, hca, e, abs_neg, hδ]

/-- The largest α command the bridge can make. -/
theorem startup_agrees_full : (svpwm svpwmInit 6 0).sum ≤ (svpwm svpwmInit 6 0).Ts :=
  (startup_agrees { Motor_1 with Ualpha := 6, Ubeta := 0 } svpwmInit (by norm_num [svpwmInit])
    (by decide) (by constructor <;> decide +kernel)).2.2.1

end At32Foc
