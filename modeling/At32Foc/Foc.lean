import At32Foc.SVpwm
import At32Foc.FastSin
import At32Foc.Control

/-!
# The control step and the start-up calibration

`FOC.c` and the decoder of `mt6701.c`.  `focContorl` is one control step of a
motor; `firstGet` and `angleInit` are the two calibrations of the boot sequence.
Functions that read a peripheral take what it holds at that moment (`Inputs`), a
loop that reads it repeatedly takes one `Inputs` per iteration.
-/

namespace At32Foc

open ControlLib

/-! ## Encoder -/

/-- `MT6701_GetAngle` on a received frame `rx_buf`. -/
def mt6701GetAngle (rx0 rx1 rx2 : UInt8) : ℚ :=
  let temp := ((rx0.toNat <<< 16) ||| (rx1.toNat <<< 8) ||| rx2.toNat) >>> 10
  let angle := ((temp : ℚ) * 360) / 16384.0
  angle * 6.28318 / 360.0

/-! ## Angles -/

def limit (inVo low high : ℚ) : ℚ :=
  if inVo ≥ high then high
  else if inVo ≤ low then low
  else inVo

def angleLimit (angle : ℚ) : ℚ :=
  let a := fmod angle _2PI
  if a ≥ 0 then a else a + _2PI

/-- `_electricalAngle`: the motor's own encoder, selected by its flag. -/
def electricalAngle (hw : Inputs) (pFOC : FOCState ℚ) : FOCState ℚ :=
  let pFOC :=
    if pFOC.current.Mflag = 1 then { pFOC with mechanicalAngle := hw.mt6701_1 }
    else if pFOC.current.Mflag = 2 then { pFOC with mechanicalAngle := hw.mt6701_2 }
    else pFOC
  { pFOC with elecAngle := angleLimit (pFOC.mechanicalAngle * POLE_PAIRS) }

/-- The electrical angle less the zero offset, with the snap to 0 just below a turn. -/
def correctedAngle (elecAngle zero : ℚ) : ℚ :=
  let corrAngle := angleLimit (elecAngle - zero)
  if |corrAngle - _2PI| < EPSILON then 0.0 else corrAngle

def getCorrectedElectricalAngle (hw : Inputs) (pFOC : FOCState ℚ) : FOCState ℚ :=
  let pFOC := electricalAngle hw pFOC
  { pFOC with corrAngle := correctedAngle pFOC.elecAngle pFOC.zero }

def strongDragAngle (pFOC : FOCState ℚ) : FOCState ℚ :=
  let pFOC := { pFOC with mechanicalAngle := 0.0 }
  let pFOC := { pFOC with elecAngle := angleLimit (pFOC.mechanicalAngle * POLE_PAIRS) }
  { pFOC with corrAngle := correctedAngle pFOC.elecAngle pFOC.zero }

/-! ## Transforms -/

/-- The α/β formulas of `clarke_transform`. -/
def clarkeAlphaBeta (pFOC : FOCState ℚ) : FOCState ℚ :=
  { pFOC with Ialpha := pFOC.Ia, Ibeta := (pFOC.Ia + 2 * pFOC.Ib) / SQRT3 }

def clarkeTransform (pFOC : FOCState ℚ) : FOCState ℚ :=
  let pFOC := { pFOC with Ia := -pFOC.Ia, Ib := -pFOC.Ib }
  clarkeAlphaBeta pFOC

def parkTransform (pFOC : FOCState ℚ) : FOCState ℚ :=
  { pFOC with
    Id := pFOC.Ialpha * fastCos pFOC.corrAngle + pFOC.Ibeta * fastSin pFOC.corrAngle
    Iq := -pFOC.Ialpha * fastSin pFOC.corrAngle + pFOC.Ibeta * fastCos pFOC.corrAngle }

def invParkTransform (pFOC : FOCState ℚ) : FOCState ℚ :=
  { pFOC with
    Ualpha := -pFOC.Uq * fastSin pFOC.corrAngle + pFOC.Ud * fastCos pFOC.corrAngle
    Ubeta := pFOC.Uq * fastCos pFOC.corrAngle + pFOC.Ud * fastSin pFOC.corrAngle }

def invClarkeTransform (pFOC : FOCState ℚ) : FOCState ℚ :=
  { pFOC with
    Ua := pFOC.Ualpha + UDC / 2
    Ub := (SQRT3 * pFOC.Ubeta - pFOC.Ualpha) / 2 + UDC / 2
    Uc := (-SQRT3 * pFOC.Ubeta - pFOC.Ualpha) / 2 + UDC / 2 }

/-! ## PWM output -/

def m1AdcTigger (timePwm : ℤ) (tmr : Timers) : Timers :=
  { tmr with TMR4 := { tmr.TMR4 with c4dt := toUInt32 (timePwm * 0.9) } }

def m2AdcTigger (timePwm : ℤ) (tmr : Timers) : Timers :=
  { tmr with TMR2 := { tmr.TMR2 with c3dt := toUInt32 (timePwm * 0.9) } }

/-- The compare value of a phase. -/
def phaseCompare (pwm : ℚ) : ℤ := toUInt32 (pwm * ALL_Duty * 0.9)

def setpwm1Channel (pwmA pwmB pwmC : ℚ) (tmr : Timers) : Timers :=
  { tmr with TMR4 := { tmr.TMR4 with
      c3dt := phaseCompare pwmA, c2dt := phaseCompare pwmB, c1dt := phaseCompare pwmC } }

def setpwm2Channel (pwmA pwmB pwmC : ℚ) (tmr : Timers) : Timers :=
  { tmr with TMR2 := { tmr.TMR2 with
      c4dt := phaseCompare pwmA, c2dt := phaseCompare pwmB, c1dt := phaseCompare pwmC } }

/-- The call through the `SetPWM` pointer. -/
def callSetPWM (p : SetPWMPtr) (pwmA pwmB pwmC : ℚ) (tmr : Timers) : Timers :=
  match p with
  | .setpwm1Channel => setpwm1Channel pwmA pwmB pwmC tmr
  | .setpwm2Channel => setpwm2Channel pwmA pwmB pwmC tmr

/-- The voltage clamps of `setpwm`. -/
def limitPhases (pFOC : FOCState ℚ) : FOCState ℚ :=
  { pFOC with
    Ua := limit pFOC.Ua 0.0 VOLTAGE_HIGH
    Ub := limit pFOC.Ub 0.0 VOLTAGE_HIGH
    Uc := limit pFOC.Uc 0.0 VOLTAGE_HIGH }

def setpwm (pFOC : FOCState ℚ) (tmr : Timers) : FOCState ℚ × Timers :=
  let pFOC := limitPhases pFOC
  let pwmA := limit (pFOC.Ua / UDC) 0.0 1.0
  let pwmB := limit (pFOC.Ub / UDC) 0.0 1.0
  let pwmC := limit (pFOC.Uc / UDC) 0.0 1.0
  (pFOC, callSetPWM pFOC.SetPWM pwmA pwmB pwmC tmr)

def setSVpwm (pFOC : FOCState ℚ) (PSVpwm : SVpwmState) (tmr : Timers) : Timers :=
  callSetPWM pFOC.SetPWM PSVpwm.Ta PSVpwm.Tb PSVpwm.Tc tmr

/-! ## Calibration -/

/-- `strong_drag` up to its call of `setpwm`. -/
def strongDragVoltages (pFOC : FOCState ℚ) : FOCState ℚ :=
  let pFOC := { pFOC with Ud := 2.0, Uq := 0.0 }
  let pFOC := strongDragAngle pFOC
  let pFOC := invParkTransform pFOC
  invClarkeTransform pFOC

def strongDrag (pFOC : FOCState ℚ) (tmr : Timers) : FOCState ℚ × Timers :=
  setpwm (strongDragVoltages pFOC) tmr

/-- One iteration of the averaging loop of `angle_init`: an encoder reading and a summand. -/
def angleInitStep (hw : Inputs) (p : FOCState ℚ × ℚ) : FOCState ℚ × ℚ :=
  let pFOC := electricalAngle hw p.1
  (pFOC, p.2 + pFOC.elecAngle)

def angleInitLoop (hw : ℕ → Inputs) (samples : ℕ) (pFOC : FOCState ℚ) : FOCState ℚ × ℚ :=
  (List.range samples).foldl (fun p i => angleInitStep (hw i) p) (pFOC, 0)

/-- The mean of the readings becomes the zero offset. -/
def angleInitMean (samples : ℕ) (p : FOCState ℚ × ℚ) : FOCState ℚ :=
  { p.1 with zero := p.2 / samples }

/-- `angle_init` once the rotor is held: `hw 0` is read and dropped, `hw 1` to `hw 10` are
averaged, `hw 11` is read last. -/
def angleInitZero (hw : ℕ → Inputs) (pFOC : FOCState ℚ) : FOCState ℚ :=
  let pFOC := electricalAngle (hw 0) pFOC
  let pFOC := angleInitMean 10 (angleInitLoop (fun i => hw (i + 1)) 10 pFOC)
  getCorrectedElectricalAngle (hw 11) pFOC

def angleInit (hw : ℕ → Inputs) (pFOC : FOCState ℚ) (tmr : Timers) : FOCState ℚ × Timers :=
  let dragged := strongDrag pFOC tmr
  (angleInitZero hw dragged.1, dragged.2)

/-- One iteration of the loop of `first_get`. -/
def firstGetStep (hw : Inputs) (c : CurrentState) : CurrentState :=
  if c.Mflag = 1 then
    { c with adB := c.adB + hw.Motor1ADValue.ad0, adA := c.adA + hw.Motor1ADValue.ad1 }
  else if c.Mflag = 2 then
    { c with adB := c.adB + hw.Motor2ADValue.ad0, adA := c.adA + hw.Motor2ADValue.ad1 }
  else c

def firstGetLoop (hw : ℕ → Inputs) (samples : ℕ) (c : CurrentState) : CurrentState :=
  (List.range samples).foldl (fun c i => firstGetStep (hw i) c) c

/-- What `first_get` leaves in `current`. -/
def firstGetCurrent (hw : ℕ → Inputs) (c : CurrentState) : CurrentState :=
  let c := { c with adB := 0, adA := 0 }
  let c := firstGetLoop hw 16 c
  { c with voltageAOffset := c.adA >>> 4, voltageBOffset := c.adB >>> 4 }

def firstGet (hw : ℕ → Inputs) (pFOC : FOCState ℚ) : FOCState ℚ :=
  { pFOC with current := firstGetCurrent hw pFOC.current }

/-! ## The control step -/

/-- The two ADC words of the motor, selected by its flag. -/
def sampleAD (hw : Inputs) (pFOC : FOCState ℚ) : FOCState ℚ :=
  if pFOC.current.Mflag = 1 then
    { pFOC with current := { pFOC.current with
        adA := hw.Motor1ADValue.ad1, adB := hw.Motor1ADValue.ad0 } }
  else if pFOC.current.Mflag = 2 then
    { pFOC with current := { pFOC.current with
        adA := hw.Motor2ADValue.ad1, adB := hw.Motor2ADValue.ad0 } }
  else pFOC

/-- A phase current from a raw value and an offset, promoted to `int`. -/
def phaseCurrent (ad offset : UInt16) : ℚ :=
  (((ad.toNat : ℤ) - (offset.toNat : ℤ) : ℤ) : ℚ) / 4096.0 * ADC_REF_VOLTAGE * GAIN

def phaseCurrents (pFOC : FOCState ℚ) : FOCState ℚ :=
  let pFOC := { pFOC with Ia := phaseCurrent pFOC.current.adA pFOC.current.voltageAOffset }
  let pFOC := { pFOC with Ib := phaseCurrent pFOC.current.adB pFOC.current.voltageAOffset }
  { pFOC with Ic := 0 - pFOC.Ia - pFOC.Ib }

/-- From the raw values to the filtered `Id`, `Iq`. -/
def focCurrents (pFOC : FOCState ℚ) (LPF_M : LPFCurrent) : FOCState ℚ × LPFCurrent :=
  let pFOC := phaseCurrents pFOC
  let pFOC := clarkeTransform pFOC
  let pFOC := parkTransform pFOC
  let (LPF_M, Id, Iq) := lpfUpdate LPF_M pFOC.Id pFOC.Iq
  ({ pFOC with Id := Id, Iq := Iq }, LPF_M)

/-- The first half of `FocContorl`: angle, ADC words, filtered currents. -/
def focMeasure (hw : Inputs) (pFOC : FOCState ℚ) (LPF_M : LPFCurrent) : FOCState ℚ × LPFCurrent :=
  focCurrents (sampleAD hw (getCorrectedElectricalAngle hw pFOC)) LPF_M

/-- The middle of `FocContorl`: the current controllers and the voltage command. -/
def focControl (pFOC : FOCState ℚ) : FOCState ℚ :=
  let pFOC := currentPIControlID pFOC
  let pFOC := currentPIControlIQ pFOC
  let pFOC := { pFOC with Ud := pFOC.idPID.out, Uq := pFOC.iqPID.out }
  invParkTransform pFOC

/-- What `FocContorl` updates through its pointers, and the timers it writes. -/
structure Drive where
  pFOC : FOCState ℚ
  PSVpwm : SVpwmState
  LPF_M : LPFCurrent
  tmr : Timers

def focContorl (hw : Inputs) (d : Drive) : Drive :=
  let measured := focMeasure hw d.pFOC d.LPF_M
  let pFOC := focControl measured.1
  let PSVpwm := svpwm d.PSVpwm pFOC.Ualpha pFOC.Ubeta
  ⟨pFOC, PSVpwm, measured.2, setSVpwm pFOC PSVpwm d.tmr⟩

/-! ## Small facts -/

theorem angleInitLoop_succ (hw : ℕ → Inputs) (n : ℕ) (pFOC : FOCState ℚ) :
    angleInitLoop hw (n + 1) pFOC = angleInitStep (hw n) (angleInitLoop hw n pFOC) := by
  rw [angleInitLoop, List.range_succ, List.foldl_append]
  rfl

theorem firstGetLoop_succ (hw : ℕ → Inputs) (n : ℕ) (c : CurrentState) :
    firstGetLoop hw (n + 1) c = firstGetStep (hw n) (firstGetLoop hw n c) := by
  rw [firstGetLoop, List.range_succ, List.foldl_append]
  rfl

/-- Records that differ in their angles only. -/
def SameButAngles (p q : FOCState ℚ) : Prop :=
  ∃ a e c z, q = { p with mechanicalAngle := a, elecAngle := e, corrAngle := c, zero := z }

theorem SameButAngles.refl (p : FOCState ℚ) : SameButAngles p p :=
  ⟨p.mechanicalAngle, p.elecAngle, p.corrAngle, p.zero, rfl⟩

theorem SameButAngles.trans {p q r : FOCState ℚ} (h : SameButAngles p q)
    (h' : SameButAngles q r) : SameButAngles p r := by
  obtain ⟨a, e, c, z, rfl⟩ := h
  obtain ⟨a', e', c', z', rfl⟩ := h'
  exact ⟨a', e', c', z', rfl⟩

theorem electricalAngle_same (hw : Inputs) (pFOC : FOCState ℚ) :
    SameButAngles pFOC (electricalAngle hw pFOC) := by
  unfold electricalAngle
  split_ifs
  · exact ⟨_, _, pFOC.corrAngle, pFOC.zero, rfl⟩
  · exact ⟨_, _, pFOC.corrAngle, pFOC.zero, rfl⟩
  · exact ⟨pFOC.mechanicalAngle, _, pFOC.corrAngle, pFOC.zero, rfl⟩

theorem getCorrectedElectricalAngle_same (hw : Inputs) (pFOC : FOCState ℚ) :
    SameButAngles pFOC (getCorrectedElectricalAngle hw pFOC) := by
  refine (electricalAngle_same hw pFOC).trans ?_
  unfold getCorrectedElectricalAngle
  generalize electricalAngle hw pFOC = p
  exact ⟨p.mechanicalAngle, p.elecAngle, _, p.zero, rfl⟩

theorem angleInitLoop_same (hw : ℕ → Inputs) (n : ℕ) (pFOC : FOCState ℚ) :
    SameButAngles pFOC (angleInitLoop hw n pFOC).1 := by
  induction n with
  | zero => exact .refl pFOC
  | succ n ih =>
    rw [angleInitLoop_succ]
    exact ih.trans (electricalAngle_same (hw n) _)

theorem angleInitMean_same (n : ℕ) (p : FOCState ℚ × ℚ) : SameButAngles p.1 (angleInitMean n p) :=
  ⟨p.1.mechanicalAngle, p.1.elecAngle, p.1.corrAngle, _, rfl⟩

/-- The calibration touches angles only. -/
theorem angleInitZero_same (hw : ℕ → Inputs) (pFOC : FOCState ℚ) :
    SameButAngles pFOC (angleInitZero hw pFOC) :=
  (electricalAngle_same (hw 0) pFOC).trans <| (angleInitLoop_same _ 10 _).trans <|
    (angleInitMean_same 10 _).trans <| getCorrectedElectricalAngle_same (hw 11) _

section Keeps

variable {α : Type} (g : FOCState ℚ → α)
  (hangles : ∀ {p q : FOCState ℚ}, SameButAngles p q → g q = g p)
  (hsample : ∀ hw pFOC, g (sampleAD hw pFOC) = g pFOC)
  (hcurrents : ∀ pFOC lpf, g (focCurrents pFOC lpf).1 = g pFOC)

include hangles hsample hcurrents

theorem focMeasure_keeps (hw : Inputs) (pFOC : FOCState ℚ) (lpf : LPFCurrent) :
    g (focMeasure hw pFOC lpf).1 = g pFOC := by
  rw [focMeasure, hcurrents, hsample]
  exact hangles (getCorrectedElectricalAngle_same hw pFOC)

/-- A part of the record that every stage of a control step keeps. -/
theorem focContorl_keeps (hcontrol : ∀ pFOC, g (focControl pFOC) = g pFOC) (hw : Inputs)
    (d : Drive) : g (focContorl hw d).pFOC = g d.pFOC := by
  rw [focContorl, hcontrol]
  exact focMeasure_keeps g hangles hsample hcurrents hw d.pFOC d.LPF_M

end Keeps

@[simp] theorem focControl_SetPWM (pFOC : FOCState ℚ) :
    (focControl pFOC).SetPWM = pFOC.SetPWM := rfl

theorem focControl_idPID (pFOC : FOCState ℚ) :
    (focControl pFOC).idPID = piControl pFOC.idPID pFOC.Id pFOC.tarid := rfl

theorem focControl_iqPID (pFOC : FOCState ℚ) : (focControl pFOC).iqPID =
    piControl { pFOC.iqPID with tar := pFOC.tariq } pFOC.Iq pFOC.speedPID.out := rfl

theorem focControl_speedPID (pFOC : FOCState ℚ) : (focControl pFOC).speedPID = pFOC.speedPID := rfl

theorem focControl_Ud (pFOC : FOCState ℚ) :
    (focControl pFOC).Ud = (focControl pFOC).idPID.out := by
  simp only [focControl, invParkTransform]

theorem focControl_Uq (pFOC : FOCState ℚ) :
    (focControl pFOC).Uq = (focControl pFOC).iqPID.out := by
  simp only [focControl, invParkTransform]

theorem angleLimit_eq_wrap (angle : ℚ) : angleLimit angle = wrap angle _2PI := rfl

theorem angleLimit_mem (angle : ℚ) : 0 ≤ angleLimit angle ∧ angleLimit angle < _2PI := by
  rw [angleLimit_eq_wrap]
  exact wrap_mem _2PI_pos

theorem angleLimit_of_mem {angle : ℚ} (h0 : 0 ≤ angle) (h1 : angle < _2PI) :
    angleLimit angle = angle := by
  rw [angleLimit_eq_wrap]
  exact wrap_of_mem h0 h1

/-- The snap keeps the corrected angle on the turn. -/
theorem correctedAngle_mem (elecAngle zero : ℚ) :
    0 ≤ correctedAngle elecAngle zero ∧ correctedAngle elecAngle zero < _2PI := by
  unfold correctedAngle
  dsimp only
  split_ifs
  · norm_num [_2PI]
  · exact angleLimit_mem _

theorem getCorrectedElectricalAngle_mem (hw : Inputs) (pFOC : FOCState ℚ) :
    0 ≤ (getCorrectedElectricalAngle hw pFOC).corrAngle ∧
      (getCorrectedElectricalAngle hw pFOC).corrAngle < _2PI :=
  correctedAngle_mem (electricalAngle hw pFOC).elecAngle (electricalAngle hw pFOC).zero

/-- The bytes do not overlap, and the shift drops the lower ten bits. -/
theorem temp_eq (b0 b1 b2 : UInt8) :
    ((b0.toNat <<< 16) ||| (b1.toNat <<< 8) ||| b2.toNat) >>> 10 =
      64 * b0.toNat + b1.toNat / 4 := by
  have h1 := b1.toNat_lt
  have h2 := b2.toNat_lt
  have hlow : b1.toNat <<< 8 ||| b2.toNat = b1.toNat <<< 8 + b2.toNat :=
    (Nat.shiftLeft_add_eq_or_of_lt (by omega) _).symm
  have hlt : b1.toNat <<< 8 + b2.toNat < 2 ^ 16 := by
    rw [Nat.shiftLeft_eq]
    omega
  rw [Nat.or_assoc, hlow, ← Nat.shiftLeft_add_eq_or_of_lt hlt, Nat.shiftRight_eq_div_pow,
    Nat.shiftLeft_eq, Nat.shiftLeft_eq]
  omega

theorem mt6701GetAngle_eq (b0 b1 b2 : UInt8) :
    mt6701GetAngle b0 b1 b2 = ((64 * b0.toNat + b1.toNat / 4 : ℕ) : ℚ) * _2PI / 16384 := by
  unfold mt6701GetAngle _2PI
  dsimp only
  rw [temp_eq]
  generalize ((64 * b0.toNat + b1.toNat / 4 : ℕ) : ℚ) = x
  norm_num
  ring

theorem mt6701GetAngle_mem (b0 b1 b2 : UInt8) :
    0 ≤ mt6701GetAngle b0 b1 b2 ∧ mt6701GetAngle b0 b1 b2 < _2PI := by
  have hlt : 64 * b0.toNat + b1.toNat / 4 < 16384 := by
    have h0 := b0.toNat_lt
    have h1 := b1.toNat_lt
    omega
  have hx : ((64 * b0.toNat + b1.toNat / 4 : ℕ) : ℚ) < 16384 := by exact_mod_cast hlt
  rw [mt6701GetAngle_eq, div_lt_iff₀ (by norm_num), mul_comm _2PI]
  exact ⟨div_nonneg (mul_nonneg (Nat.cast_nonneg _) _2PI_pos.le) (by norm_num),
    mul_lt_mul_of_pos_right hx _2PI_pos⟩

end At32Foc
