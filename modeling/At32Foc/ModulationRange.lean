import At32Foc.Lib.ModulationContinuity
import At32Foc.VoltageSynthesis
import At32Foc.CurrentOffset
import At32Foc.PwmOutput

/-!
# Continuity and depth of the modulation

* `svpwm_lipschitz`: the duties of nonzero commands are as close as the commands, with one
  constant across all sector boundaries and the onset of over-modulation.  Towards the zero
  command, which the switch leaves out, they all tend to half the period.
* `registers_near`: right after any control step of any run, the compare registers stand for
  the voltage `k * (Ud, Uq)` within 4 mV in the rotor frame.  Over-modulation costs less than a
  fifth of it (`k² ≥ 2/3`), and nothing up to the circle `Ud² + Uq² ≤ 48`.
* `period_voltage_near`: over a PWM period, the outputs apply that voltage to the motor, less
  the tenth of the period that is left to the ADC.
-/

namespace At32Foc

open ControlLib

/-! ## Continuity -/

section Lipschitz

variable {s s' : SVpwmState} {Ualpha Ubeta : ℚ}

/-- The line-to-line command moves no further than `K` times the voltage command. -/
theorem svpwm_command_sub_le (Ualpha Ubeta Ualpha' Ubeta' : ℚ) (hTs : 0 < s.Ts)
    (hs : s'.Ts = s.Ts) :
    let r := svpwm s Ualpha Ubeta
    let r' := svpwm s' Ualpha' Ubeta'
    max3 |r.u2 - r'.u2| |r.u1 - r'.u1| |r.u3 - r'.u3| ≤
      SQRT3 * s.Ts / UDC * (|Ualpha - Ualpha'| + |Ubeta - Ubeta'|) := by
  intro r r'
  have hK : 0 ≤ SQRT3 * s.Ts / UDC := by
    have h : (0 : ℚ) ≤ SQRT3 / UDC := by norm_num [SQRT3, UDC]
    calc (0 : ℚ) ≤ SQRT3 / UDC * s.Ts := mul_nonneg h hTs.le
      _ = SQRT3 * s.Ts / UDC := by ring
  -- one row of the projection, its coefficients being at most one
  have row : ∀ x y : ℚ, |x| ≤ 1 → |y| ≤ 1 →
      |(x * (Ualpha - Ualpha') + y * (Ubeta - Ubeta')) * (SQRT3 * s.Ts / UDC)| ≤
        SQRT3 * s.Ts / UDC * (|Ualpha - Ualpha'| + |Ubeta - Ubeta'|) := by
    intro x y hx hy
    have h1 : |x * (Ualpha - Ualpha')| ≤ 1 * |Ualpha - Ualpha'| := by
      rw [abs_mul]
      exact mul_le_mul_of_nonneg_right hx (abs_nonneg _)
    have h2 : |y * (Ubeta - Ubeta')| ≤ 1 * |Ubeta - Ubeta'| := by
      rw [abs_mul]
      exact mul_le_mul_of_nonneg_right hy (abs_nonneg _)
    have h3 := abs_add_le (x * (Ualpha - Ualpha')) (y * (Ubeta - Ubeta'))
    rw [abs_mul, abs_of_nonneg hK, mul_comm]
    exact mul_le_mul_of_nonneg_left (by linarith) hK
  refine max3_le ?_ ?_ ?_
  · have e : r.u2 - r'.u2 = (SQRT3_2 * (Ualpha - Ualpha') + -_1_2 * (Ubeta - Ubeta')) *
        (SQRT3 * s.Ts / UDC) := by
      rw [svpwm_u2, svpwm_u2, hs]
      ring
    rw [e]
    exact row _ _ (by norm_num [SQRT3_2, abs_le]) (by norm_num [_1_2, abs_le])
  · have e : r.u1 - r'.u1 = (0 * (Ualpha - Ualpha') + 1 * (Ubeta - Ubeta')) *
        (SQRT3 * s.Ts / UDC) := by
      rw [svpwm_u1, svpwm_u1, hs]
      ring
    rw [e]
    exact row _ _ (by norm_num) (by norm_num)
  · have e : r.u3 - r'.u3 = (-SQRT3_2 * (Ualpha - Ualpha') + -_1_2 * (Ubeta - Ubeta')) *
        (SQRT3 * s.Ts / UDC) := by
      rw [svpwm_u3, svpwm_u3, hs]
      ring
    rw [e]
    exact row _ _ (by norm_num [SQRT3_2, abs_le]) (by norm_num [_1_2, abs_le])

/-- The pattern of a nonzero command, in the shape of `modulated_abs_sub_le`. -/
theorem svpwm_pattern (hTs : 0 < s.Ts) (hU : (Ualpha, Ubeta) ≠ (0, 0)) :
    let r := svpwm s Ualpha Ubeta
    let k := modScale s.Ts (max3 |r.u2| |r.u1| |r.u3|)
    MinMaxModulated s.Ts (k * r.u2) (k * r.u1) (k * r.u3) r.Ta r.Tb r.Tc := by
  intro r k
  have h := (svpwm_modulated s Ualpha Ubeta hTs (by simpa [Prod.ext_iff] using hU)).duties
  have hk : r.scale = k := by
    show modScale r.Ts (max3 |r.u1| |r.u2| |r.u3|) = k
    rw [svpwm_Ts, max3, max_left_comm]
    rfl
  rwa [hk, svpwm_Ts] at h

/-- **No jump at a sector boundary.**  The duties of two nonzero commands, from whatever states;
and how far they are from half the period, which the zero command would have to give. -/
theorem svpwm_lipschitz (s s' : SVpwmState) (Ualpha Ubeta Ualpha' Ubeta' : ℚ) (hTs : 0 < s.Ts)
    (hs : s'.Ts = s.Ts) (hU : (Ualpha, Ubeta) ≠ (0, 0)) (hU' : (Ualpha', Ubeta') ≠ (0, 0)) :
    let r := svpwm s Ualpha Ubeta
    let r' := svpwm s' Ualpha' Ubeta'
    let L := 2 * (SQRT3 * s.Ts / UDC)
    max3 |r.Ta - r'.Ta| |r.Tb - r'.Tb| |r.Tc - r'.Tc| ≤
        L * (|Ualpha - Ualpha'| + |Ubeta - Ubeta'|) ∧
      max3 |r.Ta - s.Ts / 2| |r.Tb - s.Ts / 2| |r.Tc - s.Ts / 2| ≤
        L * (|Ualpha| + |Ubeta|) := by
  intro r r' L
  have h := svpwm_pattern hTs hU
  constructor
  · have h' := svpwm_pattern (hs ▸ hTs) hU'
    rw [hs] at h'
    have hd := svpwm_command_sub_le Ualpha Ubeta Ualpha' Ubeta' hTs hs
    have hm := modulated_abs_sub_le hTs h h'
    calc max3 |r.Ta - r'.Ta| |r.Tb - r'.Tb| |r.Tc - r'.Tc|
        ≤ 2 * max3 |r.u2 - r'.u2| |r.u1 - r'.u1| |r.u3 - r'.u3| := hm
      _ ≤ 2 * (SQRT3 * s.Ts / UDC * (|Ualpha - Ualpha'| + |Ubeta - Ubeta'|)) := by linarith
      _ = L * (|Ualpha - Ualpha'| + |Ubeta - Ubeta'|) := by rw [← mul_assoc]
  · have h0 : let k := modScale s.Ts (max3 |(0 : ℚ)| |(0 : ℚ)| |(0 : ℚ)|)
        MinMaxModulated s.Ts (k * 0) (k * 0) (k * 0) (s.Ts / 2) (s.Ts / 2) (s.Ts / 2) := by
      intro k
      rw [mul_zero]
      exact .level s.Ts
    have hm := modulated_abs_sub_le hTs h h0
    -- the line-to-line command of the zero vector is zero
    have hd := svpwm_command_sub_le Ualpha Ubeta 0 0 hTs (rfl : s.Ts = s.Ts)
    simp only [svpwm_u1 s 0 0, svpwm_u2 s 0 0, svpwm_u3 s 0 0, mul_zero, zero_mul, sub_zero] at hd
    simp only [sub_zero] at hm
    calc max3 |r.Ta - s.Ts / 2| |r.Tb - s.Ts / 2| |r.Tc - s.Ts / 2|
        ≤ 2 * max3 |r.u2| |r.u1| |r.u3| := hm
      _ ≤ 2 * (SQRT3 * s.Ts / UDC * (|Ualpha| + |Ubeta|)) := by linarith
      _ = L * (|Ualpha| + |Ubeta|) := by rw [← mul_assoc]

end Lipschitz

/-- Just above and just below the α axis, in different sectors. -/
theorem svpwm_lipschitz_boundary :
    max3 |(svpwm svpwmInit 3 0.001).Ta - (svpwm svpwmInit 3 (-0.001)).Ta|
        |(svpwm svpwmInit 3 0.001).Tb - (svpwm svpwmInit 3 (-0.001)).Tb|
        |(svpwm svpwmInit 3 0.001).Tc - (svpwm svpwmInit 3 (-0.001)).Tc| ≤
      2 * (SQRT3 * svpwmInit.Ts / UDC) * (|(3 : ℚ) - 3| + |(0.001 : ℚ) - -0.001|) :=
  (svpwm_lipschitz svpwmInit svpwmInit 3 0.001 3 (-0.001) (by norm_num [svpwmInit]) rfl
    (by decide) (by decide)).1

/-! ## Depth of over-modulation -/

theorem sq_max3_abs_le {a b c B : ℚ} (ha : a ^ 2 ≤ B) (hb : b ^ 2 ≤ B) (hc : c ^ 2 ≤ B) :
    (max3 |a| |b| |c|) ^ 2 ≤ B := by
  rw [max3]
  rcases max_choice |a| (max |b| |c|) with h | h <;> rw [h]
  · rwa [sq_abs]
  · rcases max_choice |b| |c| with h' | h' <;> rw [h']
    · rwa [sq_abs]
    · rwa [sq_abs]

/-- The line-to-line command of a voltage command in the rotor frame: the circle inside the
hexagon has the radius `UDC / √3`, whose square is 48. -/
theorem svpwm_command_sq_le {s : SVpwmState} {Ualpha Ubeta L : ℚ} (hTs : s.Ts = 1)
    (hL : lengthSq (Ualpha, Ubeta) ≤ (1 + 2e-6) * L) (hL0 : 0 ≤ L) :
    let r := svpwm s Ualpha Ubeta
    (max3 |r.u1| |r.u2| |r.u3|) ^ 2 ≤ L / 48 := by
  intro r
  have hK : (SQRT3 * s.Ts / UDC) ^ 2 * ((1 + 2e-6) * L) ≤ L / 48 := by
    rw [hTs]
    norm_num [SQRT3, UDC]
    linarith
  -- one row of the projection, its coefficients being a vector of length at most one
  have row : ∀ x y : ℚ, x ^ 2 + y ^ 2 ≤ 1 →
      ((x * Ualpha + y * Ubeta) * (SQRT3 * s.Ts / UDC)) ^ 2 ≤ L / 48 := by
    intro x y hxy
    have hcs : (x * Ualpha + y * Ubeta) ^ 2 ≤ lengthSq (Ualpha, Ubeta) := by
      have e : lengthSq (Ualpha, Ubeta) = Ualpha ^ 2 + Ubeta ^ 2 := rfl
      have hlen : (x ^ 2 + y ^ 2) * (Ualpha ^ 2 + Ubeta ^ 2) ≤ 1 * (Ualpha ^ 2 + Ubeta ^ 2) :=
        mul_le_mul_of_nonneg_right hxy (add_nonneg (sq_nonneg _) (sq_nonneg _))
      have hdet := sq_nonneg (x * Ubeta - y * Ualpha)
      rw [e]
      linarith
    have hmul := mul_le_mul_of_nonneg_left (hcs.trans hL) (sq_nonneg (SQRT3 * s.Ts / UDC))
    rw [mul_pow, mul_comm]
    exact hmul.trans hK
  refine sq_max3_abs_le ?_ ?_ ?_
  · have h := row 0 1 (by norm_num)
    rwa [zero_mul, zero_add, one_mul, ← svpwm_u1 s Ualpha Ubeta] at h
  · have h := row SQRT3_2 (-_1_2) (by norm_num [SQRT3_2, _1_2])
    rwa [neg_mul, ← sub_eq_add_neg, ← svpwm_u2 s Ualpha Ubeta] at h
  · have h := row (-SQRT3_2) (-_1_2) (by norm_num [SQRT3_2, _1_2])
    rwa [neg_mul _1_2, ← sub_eq_add_neg, ← svpwm_u3 s Ualpha Ubeta] at h

/-- A command whose largest line-to-line duty is at most `√(3/2)` keeps more than `√(2/3)`. -/
theorem modScale_sq_ge {m : ℚ} (hm : m ^ 2 ≤ 3 / 2) :
    2 / 3 ≤ modScale 1 m ^ 2 := by
  unfold modScale
  split_ifs with h
  · norm_num
  · have hpos : 0 < m ^ 2 := pow_pos (one_pos.trans (not_le.mp h)) 2
    rw [div_pow, one_pow, le_div_iff₀ hpos]
    linarith

theorem modScale_eq_one {m : ℚ} (h0 : 0 ≤ m) (hm : m ^ 2 ≤ 1) : modScale 1 m = 1 :=
  modScale_of_le ((sq_le_one_iff₀ h0).mp hm)

/-! ## The compare registers -/

/-- The voltage a leg's compare value stands for. -/
def TmrType.legVoltage (t : TmrType) (m : Motor) (p : PwmPhase) : ℚ :=
  UDC * t.compare m p / 4500

/-- Leg voltages in the stationary frame, by the formulas of `clarke_transform`: the mean of
the legs drops out. -/
def statorVoltage (V : PwmPhase → ℚ) : ℚ × ℚ :=
  let mean := (V .A + V .B + V .C) / 3
  let Va := V .A - mean
  let Vb := V .B - mean
  (Va, (Va + 2 * Vb) / SQRT3)

/-- The same in the rotor frame, by `park_transform`. -/
def MotorView.rotorVoltage (v : MotorView) (V : PwmPhase → ℚ) : ℚ × ℚ :=
  rotateBack (fastSin v.foc.corrAngle) (fastCos v.foc.corrAngle) (statorVoltage V)

theorem rotorVoltage_smul (v : MotorView) (g : ℚ) (V : PwmPhase → ℚ) :
    v.rotorVoltage (fun p => g * V p) = (g * (v.rotorVoltage V).1, g * (v.rotorVoltage V).2) := by
  simp only [MotorView.rotorVoltage, statorVoltage, rotateBack, Prod.mk.injEq]
  constructor <;> ring

/-- Rounding the compare values down costs less than `UDC / 4500` on every leg. -/
theorem statorVoltage_near {m : Motor} {t : TmrType} {s : SVpwmState} (hs : s.InPeriod)
    (h : ∀ p, t.compare m p = phaseCompare (s.duty p)) :
    |(statorVoltage (t.legVoltage m)).1 - (phaseVoltages s).1| ≤ 0.00178 ∧
      |(statorVoltage (t.legVoltage m)).2 -
        ((phaseVoltages s).1 + 2 * (phaseVoltages s).2) / SQRT3| ≤ 0.00154 := by
  have leg : ∀ p, 0 ≤ s.duty p →
      UDC * s.duty p - UDC / 4500 ≤ t.legVoltage m p ∧ t.legVoltage m p ≤ UDC * s.duty p := by
    intro p hp
    obtain ⟨h1, h2⟩ := phaseCompare_near hp
    rw [TmrType.legVoltage, h p]
    norm_num [UDC]
    constructor <;> linarith
  obtain ⟨a1, a2⟩ := leg .A hs.2.1.1
  obtain ⟨b1, b2⟩ := leg .B hs.2.2.1.1
  obtain ⟨c1, c2⟩ := leg .C hs.2.2.2.1
  have eA : s.duty .A = s.Ta := rfl
  have eB : s.duty .B = s.Tb := rfl
  have eC : s.duty .C = s.Tc := rfl
  rw [eA] at a1 a2
  rw [eB] at b1 b2
  rw [eC] at c1 c2
  simp only [statorVoltage, phaseVoltages]
  generalize t.legVoltage m .A = A, t.legVoltage m .B = B, t.legVoltage m .C = C at *
  norm_num [UDC, SQRT3] at *
  constructor <;> rw [abs_le] <;> constructor <;> linarith

/-! ## A control step -/

theorem sampleAD_corrAngle (hw : Inputs) (pFOC : FOCState ℚ) :
    (sampleAD hw pFOC).corrAngle = pFOC.corrAngle := by
  unfold sampleAD
  split_ifs <;> rfl

/-- Measuring ends with the corrected angle of the step. -/
theorem focMeasure_corrAngle (hw : Inputs) (pFOC : FOCState ℚ) (lpf : LPFCurrent) :
    (focMeasure hw pFOC lpf).1.corrAngle = (getCorrectedElectricalAngle hw pFOC).corrAngle := by
  rw [focMeasure, ← sampleAD_corrAngle hw (getCorrectedElectricalAngle hw pFOC)]
  generalize sampleAD hw (getCorrectedElectricalAngle hw pFOC) = p
  rfl

theorem focControl_rotates (pFOC : FOCState ℚ) :
    let p := focControl pFOC
    (p.Ualpha, p.Ubeta) = rotate (fastSin p.corrAngle) (fastCos p.corrAngle) (p.Ud, p.Uq) ∧
      p.corrAngle = pFOC.corrAngle := ⟨rfl, rfl⟩

/-- What a control step leaves: the duties are those of the stored voltage command, which is
the controllers' output turned by the stored angle. -/
theorem control_voltage (m : Motor) (v : MotorView) (ad : ADBuffer) (angle : ℚ) :
    let r := v.control m ad angle
    r.sv = svpwm v.sv r.foc.Ualpha r.foc.Ubeta ∧
      (r.foc.Ualpha, r.foc.Ubeta) =
        rotate (fastSin r.foc.corrAngle) (fastCos r.foc.corrAngle) (r.foc.Ud, r.foc.Uq) ∧
      0 ≤ r.foc.corrAngle ∧ r.foc.corrAngle ≤ _2PI := by
  have hθ := getCorrectedElectricalAngle_mem (.both ad angle) v.foc
  rw [← focMeasure_corrAngle (.both ad angle) v.foc v.lpf] at hθ
  unfold MotorView.control focContorl
  generalize focMeasure (.both ad angle) v.foc v.lpf = measured at hθ ⊢
  obtain ⟨hrot, hcorr⟩ := focControl_rotates measured.1
  rw [← hcorr] at hθ
  exact ⟨rfl, hrot, hθ.1, hθ.2.le⟩

/-- An error in the stationary frame, seen from the rotor. -/
theorem rotateBack_add_smul (s c k x y : ℚ) (u : ℚ × ℚ) :
    rotateBack s c (k * u.1 + x, k * u.2 + y) =
      (k * (rotateBack s c u).1 + (x * c + y * s),
        k * (rotateBack s c u).2 + (-x * s + y * c)) := by
  simp only [rotateBack, Prod.mk.injEq]
  constructor <;> ring

/-- Such an error has no more than both its parts. -/
theorem turned_abs_le {x y s c : ℚ} (hx : |x| ≤ 0.0023) (hy : |y| ≤ 0.00154)
    (hs : |s| ≤ 1 + 1e-6) (hc : |c| ≤ 1 + 1e-6) : |x * c + y * s| ≤ 0.00385 := by
  calc |x * c + y * s| ≤ |x * c| + |y * s| := abs_add_le _ _
    _ = |x| * |c| + |y| * |s| := by rw [abs_mul, abs_mul]
    _ ≤ 0.0023 * (1 + 1e-6) + 0.00154 * (1 + 1e-6) := by gcongr
    _ ≤ 0.00385 := by norm_num

/-- A component of the command, turned there and back. -/
theorem there_and_back_le {k N x e : ℚ} (hk : 0 < k ∧ k ≤ 1) (hN : |N - 1| ≤ 2e-6)
    (hx : |x| ≤ 6) (he : |e| ≤ 0.00385) : |k * (N * x) + e - k * x| ≤ 0.004 := by
  have hkN : |k * (N - 1) * x| ≤ 1 * 2e-6 * 6 := by
    rw [abs_mul, abs_mul, abs_of_pos hk.1]
    gcongr
    exact hk.2
  calc |k * (N * x) + e - k * x| = |k * (N - 1) * x + e| := by congr 1; ring
    _ ≤ |k * (N - 1) * x| + |e| := abs_add_le _ _
    _ ≤ 1 * 2e-6 * 6 + 0.00385 := add_le_add hkN he
    _ ≤ 0.004 := by norm_num

/-- The registers after a control step of a motor within its limits. -/
theorem MotorView.Safe.control_registers {m : Motor} {v : MotorView} (h : v.Safe m) (ad : ADBuffer)
    (angle : ℚ) :
    let r := v.control m ad angle
    (r.foc.Ud, r.foc.Uq) ≠ (0, 0) →
      |(r.rotorVoltage (r.tmr.legVoltage m)).1 - r.sv.scale * r.foc.Ud| ≤ 0.004 ∧
        |(r.rotorVoltage (r.tmr.legVoltage m)).2 - r.sv.scale * r.foc.Uq| ≤ 0.004 := by
  intro r hne
  have hr : r.Safe m := h.control ad angle
  have hcmp : ∀ p, r.tmr.compare m p = phaseCompare (r.sv.duty p) :=
    control_compare h.wired ad angle
  obtain ⟨hsv, hrot, hθ⟩ := control_voltage m v ad angle
  have hU : ¬ (r.foc.Ualpha = 0 ∧ r.foc.Ubeta = 0) := invPark_ne_zero hne hθ
  have hk : 0 < r.sv.scale ∧ r.sv.scale ≤ 1 :=
    ⟨modScale_pos hr.duties.1, modScale_le_one hr.duties.1⟩
  have hgain := parkGain_near hθ
  have hturned : (invParkTransform r.foc).Ualpha = r.foc.Ualpha := (congrArg Prod.fst hrot).symm
  have hUalpha := (invPark_abs_le _ hr.commands.Ud hr.commands.Uq hθ).1
  rw [hturned] at hUalpha
  -- what the registers stand for is the scaled command and two small errors
  obtain ⟨hα, hβ⟩ := statorVoltage_near hr.duties hcmp
  have eα := phaseVoltages_alpha h.Ts hU
  have eβ := phaseVoltages_beta h.Ts hU
  rw [← hsv] at eα eβ
  rw [eα] at hα
  rw [eβ] at hβ
  obtain ⟨x, hx⟩ : ∃ x, (statorVoltage (r.tmr.legVoltage m)).1 = r.sv.scale * r.foc.Ualpha + x :=
    ⟨_, (add_sub_cancel _ _).symm⟩
  obtain ⟨y, hy⟩ : ∃ y, (statorVoltage (r.tmr.legVoltage m)).2 = r.sv.scale * r.foc.Ubeta + y :=
    ⟨_, (add_sub_cancel _ _).symm⟩
  have hxle : |x| ≤ 0.0023 := by
    have hgap : |r.sv.scale * (1 - alphaGain) * r.foc.Ualpha| ≤ 1 * 6e-5 * 8.49 := by
      rw [abs_mul, abs_mul, abs_of_pos hk.1]
      gcongr
      · exact hk.2
      · exact alphaGain_near
    have ex : x = (r.sv.scale * r.foc.Ualpha + x - r.sv.scale * alphaGain * r.foc.Ualpha) -
        r.sv.scale * (1 - alphaGain) * r.foc.Ualpha := by ring
    rw [hx] at hα
    rw [ex]
    refine (abs_sub _ _).trans ((add_le_add hα hgap).trans ?_)
    norm_num
  have hyle : |y| ≤ 0.00154 := by
    rwa [hy, add_sub_cancel_left] at hβ
  have hs := fastSin_abs_le hθ.1 hθ.2
  have hc := fastCos_abs_le hθ.1 hθ.2
  have hrotor : r.rotorVoltage (r.tmr.legVoltage m) =
      (r.sv.scale * (parkGain r.foc.corrAngle * r.foc.Ud) +
          (x * fastCos r.foc.corrAngle + y * fastSin r.foc.corrAngle),
        r.sv.scale * (parkGain r.foc.corrAngle * r.foc.Uq) +
          (-x * fastSin r.foc.corrAngle + y * fastCos r.foc.corrAngle)) := by
    have hst : statorVoltage (r.tmr.legVoltage m) = (r.sv.scale * (r.foc.Ualpha, r.foc.Ubeta).1 + x,
        r.sv.scale * (r.foc.Ualpha, r.foc.Ubeta).2 + y) := Prod.ext hx hy
    rw [MotorView.rotorVoltage, hst, rotateBack_add_smul, hrot, rotateBack_rotate]
    rfl
  rw [hrotor]
  constructor
  · exact there_and_back_le hk hgain hr.commands.Ud (turned_abs_le hxle hyle hs hc)
  · refine there_and_back_le hk hgain hr.commands.Uq ?_
    rw [add_comm, neg_mul, ← sub_eq_add_neg, sub_eq_add_neg, ← neg_mul, add_comm]
    exact turned_abs_le (by rwa [abs_neg]) hyle hc hs

/-- How far a control step of a motor within its limits is scaled down. -/
theorem MotorView.Safe.control_depth {m : Motor} {v : MotorView} (h : v.Safe m) (ad : ADBuffer)
    (angle : ℚ) :
    let r := v.control m ad angle
    2 / 3 ≤ r.sv.scale ^ 2 ∧ (r.foc.Ud ^ 2 + r.foc.Uq ^ 2 ≤ 48 → r.sv.scale = 1) := by
  intro r
  have hr : r.Safe m := h.control ad angle
  obtain ⟨hsv, hrot, hθ⟩ := control_voltage m v ad angle
  have hL : lengthSq (r.foc.Ualpha, r.foc.Ubeta) ≤
      (1 + 2e-6) * lengthSq (r.foc.Ud, r.foc.Uq) := by
    rw [hrot, lengthSq_rotate]
    refine mul_le_mul_of_nonneg_right ?_ (lengthSq_nonneg _)
    have hgain := (abs_le.mp (parkGain_near hθ)).2
    rw [parkGain] at hgain
    linarith
  have hm := svpwm_command_sq_le h.Ts hL (lengthSq_nonneg _)
  rw [← hsv] at hm
  have h0 : 0 ≤ max3 |r.sv.u1| |r.sv.u2| |r.sv.u3| :=
    (abs_nonneg _).trans (le_max3 |r.sv.u1| |r.sv.u2| |r.sv.u3|).1
  have e : r.sv.scale = modScale 1 (max3 |r.sv.u1| |r.sv.u2| |r.sv.u3|) := by
    rw [SVpwmState.scale, hr.Ts]
  rw [e]
  constructor
  · have h72 : lengthSq (r.foc.Ud, r.foc.Uq) ≤ 6 ^ 2 + 6 ^ 2 :=
      lengthSq_le hr.commands.Ud hr.commands.Uq
    exact modScale_sq_ge (by linarith)
  · intro h48
    have e48 : lengthSq (r.foc.Ud, r.foc.Uq) = r.foc.Ud ^ 2 + r.foc.Uq ^ 2 := rfl
    exact modScale_eq_one h0 (by linarith)

/-! ## Result -/

/-- **The registers stand for the command.**  After boot, any events and a control step with a
nonzero command: within 4 mV of the command, scaled down by at most `√(2/3)`. -/
theorem registers_near (strtof : List UInt8 → ℚ) (b : BootInputs) (evs : List Event) (m : Motor)
    (ad : ADBuffer) (angle : ℚ) :
    let v := (run (step strtof) (boot b) (evs ++ [.adc m ad angle])).view m
    (v.foc.Ud, v.foc.Uq) ≠ (0, 0) →
      ∃ k : ℚ, 0 < k ∧ k ≤ 1 ∧ 2 / 3 ≤ k ^ 2 ∧ (v.foc.Ud ^ 2 + v.foc.Uq ^ 2 ≤ 48 → k = 1) ∧
        |(v.rotorVoltage (v.tmr.legVoltage m)).1 - k * v.foc.Ud| ≤ 0.004 ∧
        |(v.rotorVoltage (v.tmr.legVoltage m)).2 - k * v.foc.Uq| ≤ 0.004 := by
  intro v hne
  have hpre : ((run (step strtof) (boot b) evs).view m).Safe m := by
    rw [run_view strtof m evs (boot b) (boot_wired b), view_boot]
    exact run_invariant (motorStep_safe strtof m) _ _ (bootView_safe m _ _)
  have hv : v = ((run (step strtof) (boot b) evs).view m).control m ad angle := by
    show (run (step strtof) (boot b) (evs ++ [.adc m ad angle])).view m = _
    rw [run_append]
    have hw := run_invariant (step_wired strtof) evs (boot b) (boot_wired b)
    exact view_step_some strtof hw (o := .control ad angle) (by cases m <;> rfl)
  rw [hv] at hne ⊢
  have hpos := (hpre.control ad angle).duties.1
  obtain ⟨h1, h2⟩ := hpre.control_registers ad angle hne
  obtain ⟨h3, h4⟩ := hpre.control_depth ad angle
  exact ⟨_, modScale_pos hpos, modScale_le_one hpos, h3, h4, h1, h2⟩

/-- A first control step that finds a current. -/
theorem registers_near_first :
    let v := (run (step fun _ => 0) (boot (.const ⟨⟨0, 0⟩, ⟨0, 0⟩, 0, 0⟩))
      ([] ++ [.adc .M1 ⟨4095, 0⟩ 0])).view .M1
    ∃ k : ℚ, 0 < k ∧ k ≤ 1 ∧ 2 / 3 ≤ k ^ 2 ∧ (v.foc.Ud ^ 2 + v.foc.Uq ^ 2 ≤ 48 → k = 1) ∧
      |(v.rotorVoltage (v.tmr.legVoltage .M1)).1 - k * v.foc.Ud| ≤ 0.004 ∧
      |(v.rotorVoltage (v.tmr.legVoltage .M1)).2 - k * v.foc.Uq| ≤ 0.004 :=
  registers_near (fun _ => 0) (.const ⟨⟨0, 0⟩, ⟨0, 0⟩, 0, 0⟩) [] .M1 ⟨4095, 0⟩ 0
    (by decide +kernel)

/-! ## A period of the outputs -/

/-- The mean voltage of a leg over a period: the supply while it is high. -/
def Inverter.periodVoltage (strtof : List UInt8 → ℚ) (m : Motor) (mid : List InverterEvent)
    (s : Inverter) (p : PwmPhase) : ℚ :=
  UDC * s.onTime strtof m p mid / PWM_PERIOD

/-- The counter runs to 4999, where a full duty is 4500. -/
theorem Inverter.Safe.periodVoltage_hold {s : Inverter} (hs : s.Safe) (strtof : List UInt8 → ℚ)
    (m : Motor) {mid : List InverterEvent} (hmid : ∀ e ∈ mid, ¬e.Controls m)
    (h : counts m mid = PWM_PERIOD) : s.periodVoltage strtof m mid =
      fun p => 4500 / 4999 * (s.sys.tmr.of m).legVoltage m p := by
  funext p
  have hon : (s.onTime strtof m p mid : ℚ) = 2 * ((s.sys.tmr.of m).compare m p : ℚ) := by
    exact_mod_cast hs.onTime_hold strtof m p hmid h
  have hperiod : (PWM_PERIOD : ℚ) = 2 * 4999 := by
    norm_num [PWM_PERIOD, TMR_PR]
  rw [Inverter.periodVoltage, hon, hperiod, TmrType.legVoltage]
  ring

theorem scaled_sub_le {g a b e : ℚ} (hg : 0 ≤ g ∧ g ≤ 1) (h : |a - b| ≤ e) :
    |g * a - g * b| ≤ e := by
  rw [← mul_sub, abs_mul, abs_of_nonneg hg.1]
  exact (mul_le_of_le_one_left (abs_nonneg _) hg.2).trans h

/-- **The outputs apply the command.**  In every period after a control step of a motor, and
before the next, the mean voltages of the legs are in the rotor frame within 4 mV of the command,
times `4500 / 4999` and a factor of over-modulation of at least `√(2/3)`. -/
theorem period_voltage_near (strtof : List UInt8 → ℚ) (b : BootInputs) (i : Motor → ℕ)
    (pre gap mid : List InverterEvent) (m : Motor) (e : InverterEvent) (he : e.Controls m)
    (hgap : ∀ e' ∈ gap, ¬e'.Controls m) (hmid : ∀ e' ∈ mid, ¬e'.Controls m)
    (h : counts m mid = PWM_PERIOD) :
    let s := run (inverterStep strtof) (inverterBoot b i) (pre ++ [e])
    let t := run (inverterStep strtof) s gap
    let v := s.sys.view m
    let V := v.rotorVoltage (t.periodVoltage strtof m mid)
    (v.foc.Ud, v.foc.Uq) ≠ (0, 0) →
      ∃ k : ℚ, 0 < k ∧ k ≤ 1 ∧ 2 / 3 ≤ k ^ 2 ∧ (v.foc.Ud ^ 2 + v.foc.Uq ^ 2 ≤ 48 → k = 1) ∧
        |V.1 - 4500 / 4999 * (k * v.foc.Ud)| ≤ 0.004 ∧
        |V.2 - 4500 / 4999 * (k * v.foc.Uq)| ≤ 0.004 := by
  intro s t v V hne
  have hs : s.Safe := run_inverter_safe strtof b i (pre ++ [e])
  obtain ⟨ht, htmr⟩ : t.Safe ∧ t.sys.tmr.of m = s.sys.tmr.of m := run_inverter_tmr strtof hs hgap
  obtain ⟨u, ad, angle, hu, hv⟩ : ∃ (u : MotorView) (ad : ADBuffer) (angle : ℚ), u.Safe m ∧
      v = u.control m ad angle := run_view_controls strtof b i pre he
  have hV : V = (4500 / 4999 * (v.rotorVoltage (v.tmr.legVoltage m)).1,
      4500 / 4999 * (v.rotorVoltage (v.tmr.legVoltage m)).2) := by
    show v.rotorVoltage (t.periodVoltage strtof m mid) = _
    rw [ht.periodVoltage_hold strtof m hmid h, rotorVoltage_smul, htmr, ← view_tmr]
  have hg : (0 : ℚ) ≤ 4500 / 4999 ∧ (4500 / 4999 : ℚ) ≤ 1 := by norm_num
  rw [hV]
  rw [hv] at hne ⊢
  have hpos := (hu.control ad angle).duties.1
  obtain ⟨h1, h2⟩ := hu.control_registers ad angle hne
  obtain ⟨h3, h4⟩ := hu.control_depth ad angle
  exact ⟨_, modScale_pos hpos, modScale_le_one hpos, h3, h4, scaled_sub_le hg h1,
    scaled_sub_le hg h2⟩

/-- A period after a first control step that finds a current. -/
theorem period_voltage_near_first :
    let s := run (inverterStep fun _ => 0) (inverterBoot (.const ⟨⟨0, 0⟩, ⟨0, 0⟩, 0, 0⟩) fun _ => 0)
      ([] ++ [.system (.adc1 ⟨4095, 0⟩ 0)])
    let t := run (inverterStep fun _ => 0) s otherEvents
    let v := s.sys.view .M1
    let V := v.rotorVoltage
      (t.periodVoltage (fun _ => 0) .M1 (List.replicate PWM_PERIOD (.count .M1)))
    ∃ k : ℚ, 0 < k ∧ k ≤ 1 ∧ 2 / 3 ≤ k ^ 2 ∧ (v.foc.Ud ^ 2 + v.foc.Uq ^ 2 ≤ 48 → k = 1) ∧
      |V.1 - 4500 / 4999 * (k * v.foc.Ud)| ≤ 0.004 ∧
      |V.2 - 4500 / 4999 * (k * v.foc.Uq)| ≤ 0.004 :=
  period_voltage_near (fun _ => 0) (.const ⟨⟨0, 0⟩, ⟨0, 0⟩, 0, 0⟩) (fun _ => 0) [] otherEvents
    (List.replicate PWM_PERIOD (.count .M1)) .M1 (.system (.adc1 ⟨4095, 0⟩ 0)) ⟨_, _, rfl⟩
    otherEvents_not_controls (fun e he => by rw [List.eq_of_mem_replicate he]; exact id)
    (counts_replicate .M1 PWM_PERIOD) (by decide +kernel)

end At32Foc
