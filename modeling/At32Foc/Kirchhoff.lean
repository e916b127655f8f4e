import At32Foc.CurrentOffset

/-!
# The third phase current

`FocContorl` computes `Ic` as minus the sum of the other two, so that the three add up to
zero.  Then `clarke_transform` flips the sign of `Ia` and `Ib` in place, and of these two
only: in the stored record `Ic` is their sum, and the three add up to twice that.  They add
up to zero exactly when the two readings are twice the offset (`kirchhoff_iff`).
-/

namespace At32Foc

open ControlLib

/-- The stored currents add up to twice `Ic`. -/
theorem FOCState.Phases.sum {ad : ADBuffer} {o : UInt16} {pFOC : FOCState ℚ}
    (h : pFOC.Phases ad o) : pFOC.Ia + pFOC.Ib + pFOC.Ic =
      2 * ((2 * o.toNat : ℕ) - (ad.ad1.toNat + ad.ad0.toNat : ℕ) : ℚ) * ampsPerUnit := by
  rw [h.Ia, h.Ib, h.Ic, phaseCurrent_eq, phaseCurrent_eq]
  push_cast
  ring

theorem FOCState.Phases.sum_eq_zero_iff {ad : ADBuffer} {o : UInt16} {pFOC : FOCState ℚ}
    (h : pFOC.Phases ad o) : pFOC.Ia + pFOC.Ib + pFOC.Ic = 0 ↔
      ad.ad1.toNat + ad.ad0.toNat = 2 * o.toNat := by
  have hk := ampsPerUnit_pos.ne'
  rw [h.sum, mul_eq_zero, or_iff_left hk, mul_eq_zero, or_iff_right two_ne_zero, sub_eq_zero,
    Nat.cast_inj]
  exact eq_comm

/-- **Kirchhoff's law** after a control step, of any drive and in any run of the system: it
holds exactly for the readings whose sum is twice the offset. -/
theorem kirchhoff_iff (m : Motor) :
    (∀ (hw : Inputs) (d : Drive), d.pFOC.current.Mflag = m.flag →
      let p := (focContorl hw d).pFOC
      p.Ia + p.Ib + p.Ic = 0 ↔
        (hw.ad m).ad1.toNat + (hw.ad m).ad0.toNat =
          2 * d.pFOC.current.voltageAOffset.toNat) ∧
    ∀ (strtof : List UInt8 → ℚ) (b : BootInputs) (evs : List Event) (ad : ADBuffer) (angle : ℚ),
      let v := (run (step strtof) (boot b) evs).view m
      let p := ((run (step strtof) (boot b) (evs ++ [.adc m ad angle])).view m).foc
      p.Ia + p.Ib + p.Ic = 0 ↔
        ad.ad1.toNat + ad.ad0.toNat = 2 * v.foc.current.voltageAOffset.toNat := by
  refine ⟨fun hw d h => (focContorl_phases hw d h).sum_eq_zero_iff, ?_⟩
  intro strtof b evs ad angle v p
  obtain ⟨hm, hlast⟩ := run_adc strtof m b evs ad angle
  have hp : p = (v.control m ad angle).foc := congrArg MotorView.foc hlast
  rw [hp]
  exact (control_phases hm ad angle).sum_eq_zero_iff

/-- Calibrated at 2000 on both phases, then 2010 on phase A: the sum is twice the current of
phase A. -/
theorem kirchhoff_violated :
    let b : BootInputs := .const (.both ⟨2000, 2000⟩ 0)
    let p := ((run (step fun _ => 0) (boot b) [.adc .M1 ⟨2000, 2010⟩ 0]).view .M1).foc
    (p.Ia, p.Ib, p.Ic) = (-825 / 2048, 0, -825 / 2048) ∧ p.Ia + p.Ib + p.Ic ≠ 0 := by
  decide +kernel

end At32Foc
