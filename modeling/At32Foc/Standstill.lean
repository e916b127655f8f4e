import At32Foc.SingleMotor

/-!
# A stationary rotor at start-up

`angle_init` leaves the rotor's angle in `mechanical_angle`, but the speed estimator
remembers `speed_last_angle = 0` from its initializer.  The first timer tick
therefore sees a jump from 0 to the rotor's angle, and a rotor that never moves
shows a speed and gets a torque demand:

    (∀ quiet runs, speed = 0 ∧ speedPID.out = 0 for both motors) ↔ every θ = 0

(`standstill_iff`).
-/

namespace At32Foc

open ControlLib

/-! ## The speed loop in a motor's record -/

/-- What `CalculateSpeed` and `SpeedPIControl` remember. -/
structure SpeedLoop where
  lastAngle : ℚ
  speed : ℚ
  tar : ℚ
  pid : PIStruct ℚ

def FOCState.speedLoop (pFOC : FOCState ℚ) : SpeedLoop :=
  ⟨pFOC.speedLastAngle, pFOC.speed, pFOC.tarSpeed, pFOC.speedPID⟩

theorem SameButAngles.speedLoop {p q : FOCState ℚ} (h : SameButAngles p q) :
    q.speedLoop = p.speedLoop := by
  obtain ⟨a, e, c, z, rfl⟩ := h
  rfl

theorem sampleAD_speedLoop (hw : Inputs) (pFOC : FOCState ℚ) :
    (sampleAD hw pFOC).speedLoop = pFOC.speedLoop := by
  unfold sampleAD
  split_ifs <;> rfl

theorem sampleAD_mechanicalAngle (hw : Inputs) (pFOC : FOCState ℚ) :
    (sampleAD hw pFOC).mechanicalAngle = pFOC.mechanicalAngle := by
  unfold sampleAD
  split_ifs <;> rfl

/-- A wired motor stores the angle of its own encoder. -/
theorem electricalAngle_mechanicalAngle {m : Motor} (hw : Inputs) {pFOC : FOCState ℚ}
    (h : WiredFor m pFOC) : (electricalAngle hw pFOC).mechanicalAngle = hw.angle m := by
  rw [electricalAngle_eq hw h.1]

/-- The controllers of the currents read the speed loop's output and write none of it. -/
theorem control_speedLoop (m : Motor) (v : MotorView) (ad : ADBuffer) (angle : ℚ) :
    (v.control m ad angle).foc.speedLoop = v.foc.speedLoop :=
  focContorl_keeps FOCState.speedLoop SameButAngles.speedLoop sampleAD_speedLoop (fun _ _ => rfl)
    (fun _ => rfl) _ _

/-- A control step stores the encoder's angle. -/
theorem control_mechanicalAngle {m : Motor} {v : MotorView} (h : WiredFor m v.foc) (ad : ADBuffer)
    (angle : ℚ) : (v.control m ad angle).foc.mechanicalAngle = angle := by
  have ha : (getCorrectedElectricalAngle (.both ad angle) v.foc).mechanicalAngle = angle :=
    (electricalAngle_mechanicalAngle (.both ad angle) h).trans (Inputs.angle_both m ad angle)
  have hcurrents : ∀ p lpf, (focCurrents p lpf).1.mechanicalAngle = p.mechanicalAngle :=
    fun _ _ => rfl
  have hcontrol : ∀ p, (focControl p).mechanicalAngle = p.mechanicalAngle := fun _ => rfl
  simp only [MotorView.control, focContorl, focMeasure, hcontrol, hcurrents,
    sampleAD_mechanicalAngle, ha]

/-! ## Standing still at angle zero -/

/-- Nothing the motor has measured or commanded so far is a movement. -/
structure MotorView.StandsStill (m : Motor) (v : MotorView) : Prop where
  wired : WiredFor m v.foc
  angle : v.foc.mechanicalAngle = 0
  lastAngle : v.foc.speedLoop.lastAngle = 0
  speed : v.foc.speedLoop.speed = 0
  tar : v.foc.speedLoop.tar = 0
  out : v.foc.speedLoop.pid.out = 0
  lastBias : v.foc.speedLoop.pid.lastBias = 0
  filtered : v.lpfSpeed.speed.filtered = 0
  params : v.params.CurrentSetFlag = 1 ∧ v.params.SpeedSetFlag = 1

/-- The events of a rotor that stays at `θ` and a host that stays silent. -/
def MotorEvent.Quiet (θ : ℚ) : MotorEvent → Prop
  | .control _ angle => angle = θ
  | .tick => True
  | .apply => True
  | .parse _ => False

theorem MotorView.StandsStill.control {m : Motor} {v : MotorView} (h : v.StandsStill m)
    (ad : ADBuffer) : (v.control m ad 0).StandsStill m := by
  have hl := control_speedLoop m v ad 0
  refine ⟨?_, control_mechanicalAngle h.wired ad 0, ?_, ?_, ?_, ?_, ?_, h.filtered, h.params⟩
  · exact motorStep_wired (fun _ => 0) m m v (.control ad 0) h.wired
  · rw [hl, h.lastAngle]
  · rw [hl, h.speed]
  · rw [hl, h.tar]
  · rw [hl, h.out]
  · rw [hl, h.lastBias]

/-- A controller at rest on its target stays at rest. -/
theorem piControl_atRest {pid : PIStruct ℚ} (ho : pid.out = 0) (hb : pid.lastBias = 0) (x : ℚ) :
    (piControl pid x x).out = 0 ∧ (piControl pid x x).lastBias = 0 := by
  have h := piControl_state pid x x
  have h0 : pid.state = piRest := by simp only [PIStruct.state, piRest, ho, hb]
  have hr : piStep pid.kp pid.ki pid.outMax piRest 0 = piRest := by
    simp only [piStep, piRest, sub_zero, mul_zero, add_zero]
    rw [clampSym_of_abs_le (by simp)]
  rw [h0, sub_self, hr] at h
  exact ⟨congrArg PIState.out h, congrArg PIState.lastBias h⟩

theorem tick_speed (v : MotorView) : v.tick.foc.speed =
    (v.lpfSpeed.speed.update
      (angleDiff v.foc.mechanicalAngle v.foc.speedLastAngle / 0.001)).filtered := rfl

theorem tick_speedPID (v : MotorView) :
    v.tick.foc.speedPID = piControl v.foc.speedPID v.tick.foc.speed v.foc.tarSpeed := rfl

theorem tick_filtered (v : MotorView) : v.tick.lpfSpeed.speed.filtered = v.tick.foc.speed := rfl

theorem MotorView.StandsStill.tick {m : Motor} {v : MotorView} (h : v.StandsStill m) :
    v.tick.StandsStill m := by
  have hl : v.foc.speedLastAngle = 0 := h.lastAngle
  have ht : v.foc.tarSpeed = 0 := h.tar
  have hd : angleDiff 0 0 = 0 := by norm_num [angleDiff]
  have hs : v.tick.foc.speed = 0 := by
    rw [tick_speed, h.angle, hl, hd, zero_div, LPFFilter.update_zero h.filtered, h.filtered]
  obtain ⟨ho, hb⟩ := piControl_atRest h.out h.lastBias 0
  have hp : v.tick.foc.speedPID = piControl v.foc.speedLoop.pid 0 0 := by
    rw [tick_speedPID, hs, ht, FOCState.speedLoop]
  rw [← hp] at ho hb
  exact ⟨h.wired, h.angle, h.angle, hs, ht, ho, hb, by rw [tick_filtered, hs], h.params⟩

/-- Without a pending commit the apply phase does nothing. -/
theorem MotorView.apply_of_params {v : MotorView}
    (h : v.params.CurrentSetFlag = 1 ∧ v.params.SpeedSetFlag = 1) : v.apply = v := by
  simp [MotorView.apply, applyCurrent, applySpeed, h.1, h.2]

theorem motorStep_standsStill (strtof : List UInt8 → ℚ) (m : Motor) (v : MotorView)
    (e : MotorEvent) (h : v.StandsStill m) (he : e.Quiet 0) :
    (motorStep strtof m v e).StandsStill m := by
  cases e with
  | control ad angle =>
    obtain rfl : angle = 0 := he
    exact h.control ad
  | tick => exact h.tick
  | apply =>
    rw [motorStep, MotorView.apply_of_params h.params]
    exact h
  | parse msg => exact he.elim

/-! ## Boot -/

theorem bootFoc_speedLoop (m : Motor) (fg : ℕ → Inputs) :
    (bootFoc m fg).speedLoop = ⟨0, 0, 0, ⟨0.3, 0.01, 0, 0, 0, 0, 0, 0, 40⟩⟩ := by
  norm_num [bootFoc, bootPID, setCurrentPIDTar, setCurrentPIDParams, setSpeedPIDTar,
    setSpeedPIDParams, firstGet, motorInit, zeroPID, FOCState.speedLoop]

/-- The calibration stores the last angle it reads. -/
theorem angleInitZero_mechanicalAngle {m : Motor} (hw : ℕ → Inputs) {pFOC : FOCState ℚ}
    (h : WiredFor m pFOC) : (angleInitZero hw pFOC).mechanicalAngle = (hw 11).angle m := by
  have h0 := (electricalAngle_same (hw 0) pFOC).wired h
  have hl := (angleInitLoop_same (fun i => hw (i + 1)) 10 (electricalAngle (hw 0) pFOC)).wired h0
  have hm := (angleInitMean_same 10 _).wired hl
  rw [angleInitZero]
  generalize angleInitMean 10 _ = p at hm ⊢
  exact electricalAngle_mechanicalAngle (hw 11) hm

/-- After boot a motor is at rest, except that its angle is the encoder's. -/
theorem bootView_atRest (m : Motor) (fg ai : ℕ → Inputs) :
    WiredFor m (bootView m fg ai).foc ∧
      (bootView m fg ai).foc.mechanicalAngle = (ai 11).angle m ∧
      (bootView m fg ai).foc.speedLoop = ⟨0, 0, 0, ⟨0.3, 0.01, 0, 0, 0, 0, 0, 0, 40⟩⟩ ∧
      (bootView m fg ai).lpfSpeed.speed = ⟨lpfAlpha, 0⟩ := by
  have hd : WiredFor m (strongDrag (bootFoc m fg) ⟨bootTmr.of m, bootTmr.of m⟩).1 :=
    limitPhases_wired (strongDragVoltages_wired (bootFoc_wired m fg))
  have hl : (strongDrag (bootFoc m fg) ⟨bootTmr.of m, bootTmr.of m⟩).1.speedLoop =
      (bootFoc m fg).speedLoop := rfl
  rw [bootFoc_speedLoop] at hl
  unfold bootView angleInit
  generalize strongDrag (bootFoc m fg) ⟨bootTmr.of m, bootTmr.of m⟩ = dragged at hd hl ⊢
  have hz := angleInitZero_same ai dragged.1
  exact ⟨hz.wired hd, angleInitZero_mechanicalAngle ai hd, hz.speedLoop.trans hl,
    by norm_num [lpfSpeedInit]⟩

theorem bootView_standsStill {m : Motor} (fg : ℕ → Inputs) {ai : ℕ → Inputs}
    (h : (ai 11).angle m = 0) : (bootView m fg ai).StandsStill m := by
  obtain ⟨hw, ha, hl, hf⟩ := bootView_atRest m fg ai
  exact ⟨hw, ha.trans h, by rw [hl], by rw [hl], by rw [hl], by rw [hl], by rw [hl], by rw [hf],
    rfl, rfl⟩

/-- From a zero memory, a tick measures the distance from angle 0. -/
theorem tick_speed_of_zero {v : MotorView} (hl : v.foc.speedLastAngle = 0)
    (hf : v.lpfSpeed.speed = ⟨lpfAlpha, 0⟩) :
    v.tick.foc.speed = lpfAlpha * (angleDiff v.foc.mechanicalAngle 0 / 0.001) := by
  rw [tick_speed, hl, hf, LPFFilter.update, sub_zero, zero_add]

theorem angleDiff_zero_iff {θ : ℚ} (h0 : 0 ≤ θ) (h1 : θ < _2PI) : angleDiff θ 0 = 0 ↔ θ = 0 := by
  unfold _2PI at h1
  unfold angleDiff
  simp only [sub_zero]
  split_ifs with h2 h3
  · exact ⟨fun h => by linarith, fun h => by linarith⟩
  · exact ⟨fun h => by linarith, fun h => by linarith⟩
  · exact Iff.rfl

/-! ## Result -/

/-- The events of rotors that stay at `θ` and a host that stays silent. -/
def Event.Quiet (θ : Motor → ℚ) : Event → Prop
  | .adc1 _ angle => angle = θ .M1
  | .adc3 _ angle => angle = θ .M2
  | .tmr5 => True
  | .apply => True
  | .parse _ => False

theorem Event.Quiet.forMotor {θ : Motor → ℚ} {m : Motor} {evs : List Event}
    (h : ∀ e ∈ evs, e.Quiet θ) : ∀ e' ∈ evs.filterMap (Event.forMotor m), e'.Quiet (θ m) := by
  intro e' he'
  obtain ⟨e, he, hm⟩ := List.mem_filterMap.mp he'
  have hq := h e he
  cases e with
  | adc1 ad angle => cases m <;> cases hm; exact hq
  | adc3 ad angle => cases m <;> cases hm; exact hq
  | tmr5 => cases hm; trivial
  | apply => cases hm; trivial
  | parse msg => exact hq.elim

/-- **Standstill.**  Of rotors that never move, after boot and without a command, exactly
those at angle 0 show no speed and get no torque demand in every state. -/
theorem standstill_iff (strtof : List UInt8 → ℚ) (θ : Motor → ℚ) (b : BootInputs)
    (hθ : ∀ m, 0 ≤ θ m ∧ θ m < _2PI) (hb : ∀ m k, (b.angleInit m k).angle m = θ m) :
    (∀ evs : List Event, (∀ e ∈ evs, e.Quiet θ) → ∀ m,
        ((run (step strtof) (boot b) evs).view m).foc.speed = 0 ∧
        ((run (step strtof) (boot b) evs).view m).foc.speedPID.out = 0) ↔
      ∀ m, θ m = 0 := by
  have hown : ∀ m, ((b.angleInit m 11).own m).angle m = θ m := by
    intro m
    rw [Inputs.angle_own, hb]
  constructor
  · intro hall m
    have hs := (hall [.tmr5] (by simp [Event.Quiet]) m).1
    obtain ⟨-, ha, hl, hf⟩ := bootView_atRest m (fun k => (b.firstGet m k).own m)
      (fun k => (b.angleInit m k).own m)
    rw [run_cons, run_nil, view_step_some strtof (boot_wired b) (o := .tick) (by cases m <;> rfl),
      motorStep, view_boot] at hs
    generalize bootView m _ _ = v at ha hl hf hs
    rw [tick_speed_of_zero (congrArg SpeedLoop.lastAngle hl) hf, ha, hown] at hs
    have hd := (mul_eq_zero.mp hs).resolve_left lpfAlpha_pos.ne'
    exact (angleDiff_zero_iff (hθ m).1 (hθ m).2).mp
      ((div_eq_zero_iff.mp hd).resolve_right (by norm_num))
  · intro h0 evs hq m
    have hv : ((run (step strtof) (boot b) evs).view m).StandsStill m := by
      rw [run_view strtof m evs (boot b) (boot_wired b), view_boot]
      refine run_invariant_of (C := fun _ e => e.Quiet 0) (motorStep_standsStill strtof m) _ _
        (bootView_standsStill _ ((hown m).trans (h0 m))) (allSteps_of_forall_mem _ _ _ ?_)
      exact h0 m ▸ Event.Quiet.forMotor hq
    exact ⟨hv.speed, hv.out⟩

theorem standstill_iff_one :
    ¬ ∀ evs : List Event, (∀ e ∈ evs, e.Quiet fun _ => 1) → ∀ m,
      ((run (step fun _ => 0) (boot (.const (.both ⟨0, 0⟩ 1))) evs).view m).foc.speed = 0 ∧
      ((run (step fun _ => 0) (boot (.const (.both ⟨0, 0⟩ 1))) evs).view m).foc.speedPID.out =
        0 := by
  intro h
  have h1 := (standstill_iff (fun _ => 0) (fun _ => 1) (.const (.both ⟨0, 0⟩ 1))
    (fun _ => by norm_num [_2PI]) (fun m _ => by cases m <;> rfl)).mp h .M1
  exact one_ne_zero h1

/-- One radian from the zero of the encoder: the first tick shows a speed of more than
100 rad/s and demands a negative current. -/
theorem standstill_moves :
    let s := run (step fun _ => 0) (boot (.const (.both ⟨0, 0⟩ 1))) [.tmr5]
    100 < s.Motor_1.speed ∧ s.Motor_1.speedPID.out < -30 := by
  decide +kernel

end At32Foc
