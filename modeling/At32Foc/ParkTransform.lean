import At32Foc.Lib.Rotation
import At32Foc.Foc

/-!
# `park_transform` and `inv_park_transform`

The two transforms are the rotations of `ControlLib.rotateBack` and `ControlLib.rotate` by
`corr_angle` (`parkTransform_rotates`, `invParkTransform_rotates`), with `fast_sin` and
`fast_cos` for sine and cosine.  So they undo each other up to the factor
`fast_sin² + fast_cos²`, which stays within `2e-6` of one over a whole turn
(`park_inverse`).
-/

namespace At32Foc

open ControlLib

/-- The factor of a rotation and its inverse. -/
def parkGain (corrAngle : ℚ) : ℚ := fastSin corrAngle ^ 2 + fastCos corrAngle ^ 2

theorem parkTransform_rotates (pFOC : FOCState ℚ) :
    ((parkTransform pFOC).Id, (parkTransform pFOC).Iq) =
      rotateBack (fastSin pFOC.corrAngle) (fastCos pFOC.corrAngle) (pFOC.Ialpha, pFOC.Ibeta) := rfl

theorem invParkTransform_rotates (pFOC : FOCState ℚ) :
    ((invParkTransform pFOC).Ualpha, (invParkTransform pFOC).Ubeta) =
      rotate (fastSin pFOC.corrAngle) (fastCos pFOC.corrAngle) (pFOC.Ud, pFOC.Uq) := rfl

theorem parkGain_near {corrAngle : ℚ} (hθ : 0 ≤ corrAngle ∧ corrAngle ≤ _2PI) :
    |parkGain corrAngle - 1| ≤ 2e-6 := fastSin_sq_add_fastCos_sq hθ.1 hθ.2

/-- The squared length of the measured current changes by the gain. -/
theorem parkTransform_lengthSq (pFOC : FOCState ℚ) :
    lengthSq ((parkTransform pFOC).Id, (parkTransform pFOC).Iq) =
      parkGain pFOC.corrAngle * lengthSq (pFOC.Ialpha, pFOC.Ibeta) := by
  rw [parkTransform_rotates, lengthSq_rotateBack]
  rfl

theorem invParkTransform_lengthSq (pFOC : FOCState ℚ) :
    lengthSq ((invParkTransform pFOC).Ualpha, (invParkTransform pFOC).Ubeta) =
      parkGain pFOC.corrAngle * lengthSq (pFOC.Ud, pFOC.Uq) := by
  rw [invParkTransform_rotates, lengthSq_rotate]
  rfl

/-- On one turn the rotation has no kernel. -/
theorem invPark_ne_zero {pFOC : FOCState ℚ} (hU : (pFOC.Ud, pFOC.Uq) ≠ (0, 0))
    (hθ : 0 ≤ pFOC.corrAngle ∧ pFOC.corrAngle ≤ _2PI) :
    ¬ ((invParkTransform pFOC).Ualpha = 0 ∧ (invParkTransform pFOC).Ubeta = 0) := by
  rintro ⟨ha, hb⟩
  have hgain : parkGain pFOC.corrAngle ≠ 0 := by
    have hlo := (abs_le.mp (parkGain_near hθ)).1
    intro h0
    rw [h0] at hlo
    norm_num at hlo
  have hlen := invParkTransform_lengthSq pFOC
  have hzero : lengthSq ((0 : ℚ), (0 : ℚ)) = 0 := by norm_num [lengthSq]
  rw [ha, hb, hzero, eq_comm, mul_eq_zero, or_iff_right hgain] at hlen
  exact hU (eq_zero_of_lengthSq_eq_zero hlen)

/-- A command of at most 6 V on both axes, turned. -/
theorem invPark_abs_le (pFOC : FOCState ℚ) (hd : |pFOC.Ud| ≤ 6) (hq : |pFOC.Uq| ≤ 6)
    (hθ : 0 ≤ pFOC.corrAngle ∧ pFOC.corrAngle ≤ _2PI) :
    |(invParkTransform pFOC).Ualpha| ≤ 8.49 ∧ |(invParkTransform pFOC).Ubeta| ≤ 8.49 := by
  have hgain : parkGain pFOC.corrAngle ≤ 1 + 2e-6 := by
    have hnear := (abs_le.mp (parkGain_near hθ)).2
    linarith
  have hlen : lengthSq (pFOC.Ud, pFOC.Uq) ≤ 6 ^ 2 + 6 ^ 2 := lengthSq_le hd hq
  have h849 : (0 : ℚ) ≤ 8.49 := by norm_num
  apply abs_le_of_lengthSq_le
    (v := ((invParkTransform pFOC).Ualpha, (invParkTransform pFOC).Ubeta)) h849
  rw [invParkTransform_lengthSq]
  calc parkGain pFOC.corrAngle * lengthSq (pFOC.Ud, pFOC.Uq)
      ≤ (1 + 2e-6) * (6 ^ 2 + 6 ^ 2) :=
        mul_le_mul hgain hlen (lengthSq_nonneg _) (by norm_num)
    _ ≤ 8.49 ^ 2 := by norm_num

/-- Voltages read back as if they were currents. -/
def voltagesAsCurrents (pFOC : FOCState ℚ) : FOCState ℚ :=
  { pFOC with Ialpha := pFOC.Ualpha, Ibeta := pFOC.Ubeta }

/-- Currents sent on as if they were voltage commands. -/
def currentsAsVoltages (pFOC : FOCState ℚ) : FOCState ℚ :=
  { pFOC with Ud := pFOC.Id, Uq := pFOC.Iq }

theorem park_invPark (pFOC : FOCState ℚ) :
    let p := parkTransform (voltagesAsCurrents (invParkTransform pFOC))
    (p.Id, p.Iq) = parkGain pFOC.corrAngle • (pFOC.Ud, pFOC.Uq) := by
  rw [parkGain, ← rotateBack_rotate]
  rfl

theorem invPark_park (pFOC : FOCState ℚ) :
    let p := invParkTransform (currentsAsVoltages (parkTransform pFOC))
    (p.Ualpha, p.Ubeta) = parkGain pFOC.corrAngle • (pFOC.Ialpha, pFOC.Ibeta) := by
  rw [parkGain, ← rotate_rotateBack]
  rfl

/-- **Park and inverse Park.**  On one turn the gain is within `2e-6` of one; there and back,
in either order, multiplies the vector by the gain, and so does each transform the squared
length. -/
theorem park_inverse (pFOC : FOCState ℚ) (hθ : 0 ≤ pFOC.corrAngle ∧ pFOC.corrAngle ≤ _2PI) :
    let N := fastSin pFOC.corrAngle ^ 2 + fastCos pFOC.corrAngle ^ 2
    |N - 1| ≤ 2e-6 ∧
    (∀ Ud Uq : ℚ,
      let p := invParkTransform { pFOC with Ud := Ud, Uq := Uq }
      let p' := parkTransform { p with Ialpha := p.Ualpha, Ibeta := p.Ubeta }
      p'.Id = N * Ud ∧ p'.Iq = N * Uq ∧ p.Ualpha ^ 2 + p.Ubeta ^ 2 = N * (Ud ^ 2 + Uq ^ 2)) ∧
    (∀ Ialpha Ibeta : ℚ,
      let p := parkTransform { pFOC with Ialpha := Ialpha, Ibeta := Ibeta }
      let p' := invParkTransform { p with Ud := p.Id, Uq := p.Iq }
      p'.Ualpha = N * Ialpha ∧ p'.Ubeta = N * Ibeta ∧
        p.Id ^ 2 + p.Iq ^ 2 = N * (Ialpha ^ 2 + Ibeta ^ 2)) := by
  refine ⟨fastSin_sq_add_fastCos_sq hθ.1 hθ.2, fun Ud Uq => ?_, fun Ialpha Ibeta => ?_⟩
  · have h := park_invPark { pFOC with Ud := Ud, Uq := Uq }
    exact ⟨congrArg Prod.fst h, congrArg Prod.snd h,
      invParkTransform_lengthSq { pFOC with Ud := Ud, Uq := Uq }⟩
  · have h := invPark_park { pFOC with Ialpha := Ialpha, Ibeta := Ibeta }
    exact ⟨congrArg Prod.fst h, congrArg Prod.snd h,
      parkTransform_lengthSq { pFOC with Ialpha := Ialpha, Ibeta := Ibeta }⟩

/-- Half a turn. -/
theorem park_inverse_half_turn : |fastSin 3.14159 ^ 2 + fastCos 3.14159 ^ 2 - 1| ≤ 2e-6 :=
  (park_inverse { Motor_1 with corrAngle := 3.14159 } (by norm_num [_2PI])).1

end At32Foc
