import At32Foc.Lib.Circle
import At32Foc.EncoderTransaction
import At32Foc.SingleMotor

/-!
# The commutation angle has no seam

A 14-bit code becomes a mechanical angle, eleven times that is reduced to the electrical
angle, the zero offset is subtracted and the difference reduced again, and just below a
whole turn the result snaps to 0.  Both reductions move the angle by whole turns and the snap
moves it by less than `EPSILON` on the circle (`corrAngle_near`).  So a step of `k` codes turns
the commutation angle by `k * POLE_PAIRS * _2PI / 16384`, up to two snaps, wherever
the codes and the angles wrap (`commutation_seamless`).
-/

namespace At32Foc

open ControlLib

/-- The 14-bit code of a frame: `temp` of `MT6701_GetAngle`. -/
def Word.code (w : Word) : ℕ := w.value >>> 10

def Word.angle (w : Word) : ℚ := mt6701GetAngle w.b0 w.b1 w.b2

theorem Word.angle_eq (w : Word) : w.angle = w.code * _2PI / 16384 := by
  rw [Word.angle, mt6701GetAngle_eq, Word.code, Word.value, temp_eq]

/-- The snap moves an angle by less than `EPSILON` on the circle. -/
theorem correctedAngle_near (elecAngle zero : ℚ) :
    circDist _2PI (correctedAngle elecAngle zero) (elecAngle - zero) ≤ EPSILON := by
  obtain ⟨n, hn⟩ := wrap_eq_sub (elecAngle - zero) _2PI
  rw [← angleLimit_eq_wrap] at hn
  have he : (0 : ℚ) ≤ EPSILON := by norm_num [EPSILON]
  rw [circDist_le_iff _2PI_pos]
  unfold correctedAngle
  dsimp only
  split_ifs with h
  · -- snapped: a whole turn more brings 0 to where the angle was
    refine ⟨-n - 1, ?_⟩
    rw [abs_sub_comm] at h
    have e : 0.0 - (elecAngle - zero) - _2PI * ((-n - 1 : ℤ) : ℚ) =
        _2PI - angleLimit (elecAngle - zero) := by
      rw [hn]
      push_cast
      norm_num
      ring
    rw [e]
    exact h.le
  · refine ⟨-n, ?_⟩
    have e : angleLimit (elecAngle - zero) - (elecAngle - zero) - _2PI * ((-n : ℤ) : ℚ) = 0 := by
      rw [hn]
      push_cast
      ring
    rw [e, abs_zero]
    exact he

section Corrected

variable {m : Motor} {hw : Inputs} {pFOC : FOCState ℚ} (h : pFOC.current.Mflag = m.flag)

include h

/-- The commutation angle depends on the encoder and on the zero offset. -/
theorem corrAngle_eq : (getCorrectedElectricalAngle hw pFOC).corrAngle =
    correctedAngle (angleLimit (hw.angle m * POLE_PAIRS)) pFOC.zero := by
  rw [getCorrectedElectricalAngle, electricalAngle_eq hw h]

theorem corrAngle_near : circDist _2PI (getCorrectedElectricalAngle hw pFOC).corrAngle
    (hw.angle m * POLE_PAIRS - pFOC.zero) ≤ EPSILON := by
  obtain ⟨n, hn⟩ := wrap_eq_sub (hw.angle m * POLE_PAIRS) _2PI
  rw [← angleLimit_eq_wrap] at hn
  refine circDist_le_of_turns _2PI_pos (-n) ?_
  have e : hw.angle m * POLE_PAIRS - pFOC.zero + _2PI * ((-n : ℤ) : ℚ) =
      angleLimit (hw.angle m * POLE_PAIRS) - pFOC.zero := by
    rw [hn]
    push_cast
    ring
  rw [e, corrAngle_eq h]
  exact correctedAngle_near _ _

end Corrected

/-- **No seam.**  Two frames whose codes are `k` steps apart, modulo the mechanical turn,
give commutation angles that are `k` electrical steps apart, modulo the electrical turn and
up to two snaps.  Frames of one code give one angle. -/
theorem commutation_seamless (m : Motor) (pFOC pFOC' : FOCState ℚ)
    (hm : pFOC.current.Mflag = m.flag) (hm' : pFOC'.current.Mflag = m.flag)
    (hzero : pFOC'.zero = pFOC.zero) (hw hw' : Inputs) (w w' : Word)
    (h : hw.angle m = w.angle) (h' : hw'.angle m = w'.angle) (k : ℤ)
    (hk : (w'.code : ℤ) = (w.code + k) % 16384) :
    let c := (getCorrectedElectricalAngle hw pFOC).corrAngle
    let c' := (getCorrectedElectricalAngle hw' pFOC').corrAngle
    (0 ≤ c ∧ c < _2PI) ∧ (0 ≤ c' ∧ c' < _2PI) ∧
      circDist _2PI c' (c + k * POLE_PAIRS * _2PI / 16384) ≤ 2 * EPSILON ∧
      (w.code = w'.code → c = c') := by
  intro c c'
  refine ⟨getCorrectedElectricalAngle_mem hw pFOC, getCorrectedElectricalAngle_mem hw' pFOC', ?_,
    fun hcode => ?_⟩
  · have hc : circDist _2PI c (hw.angle m * POLE_PAIRS - pFOC.zero) ≤ EPSILON := corrAngle_near hm
    have hc' : circDist _2PI c' (hw'.angle m * POLE_PAIRS - pFOC'.zero) ≤ EPSILON :=
      corrAngle_near hm'
    have hdist := circDist_add_sub_le _2PI_pos c' c (hw'.angle m * POLE_PAIRS - pFOC'.zero)
      (hw.angle m * POLE_PAIRS - pFOC.zero)
    -- the mechanical turns between the codes are eleven electrical turns each
    have hq : (w'.code : ℚ) = w.code + k - 16384 * (((w.code + k) / 16384 : ℤ) : ℚ) := by
      exact_mod_cast hk.trans (Int.emod_def _ _)
    have e : c + (hw'.angle m * POLE_PAIRS - pFOC'.zero - (hw.angle m * POLE_PAIRS - pFOC.zero)) =
        c + k * POLE_PAIRS * _2PI / 16384 +
          _2PI * ((-11 * ((w.code + k) / 16384) : ℤ) : ℚ) := by
      rw [h, h', hzero, w.angle_eq, w'.angle_eq, hq, POLE_PAIRS]
      push_cast
      ring
    rw [e] at hdist
    refine circDist_le_of_turns _2PI_pos _ (hdist.trans ?_)
    rw [two_mul]
    exact add_le_add hc' hc
  · show (getCorrectedElectricalAngle hw pFOC).corrAngle =
      (getCorrectedElectricalAngle hw' pFOC').corrAngle
    rw [corrAngle_eq hm, corrAngle_eq hm', h, h', hzero, w.angle_eq, w'.angle_eq, hcode]

/-- One code across the mechanical zero, on the second motor. -/
theorem commutation_seamless_zero :
    let hw (w : Word) : Inputs := .both ⟨0, 0⟩ w.angle
    let c := (getCorrectedElectricalAngle (hw ⟨255, 252, 0⟩) Motor_2).corrAngle
    let c' := (getCorrectedElectricalAngle (hw ⟨0, 0, 0⟩) Motor_2).corrAngle
    circDist _2PI c' (c + (1 : ℤ) * POLE_PAIRS * _2PI / 16384) ≤ 2 * EPSILON :=
  (commutation_seamless .M2 Motor_2 Motor_2 rfl rfl rfl _ _ ⟨255, 252, 0⟩ ⟨0, 0, 0⟩ rfl rfl 1
    (by decide)).2.2.1

end At32Foc
