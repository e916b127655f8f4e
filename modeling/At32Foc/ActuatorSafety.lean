import At32Foc.SingleMotor

/-!
# Actuator safety

Whatever the sensors show and whatever the host sends, the voltages, the current
demand, the duties and the PWM compare values stay within their limits:

    run (step strtof) (boot b) evs  is safe for both motors              (actuator_safe)

`MotorView.Safe` is the invariant of one motor's machine.  The limits `outMax` are
part of it: the host chooses gains and targets, but every commit writes the same
limits.  The duties stay within the period through `svpwm_inPeriod`, also over the
zero command, which leaves the previous ones.
-/

namespace At32Foc

open ControlLib

/-! ## Compare registers -/

/-- The compare registers of the three phases, in the channel order of the motor's board. -/
def TmrType.phases (m : Motor) (t : TmrType) : List ℤ :=
  match m with
  | .M1 => [t.c3dt, t.c2dt, t.c1dt]
  | .M2 => [t.c4dt, t.c2dt, t.c1dt]

/-- The compare register that starts the ADC. -/
def TmrType.trigger (m : Motor) (t : TmrType) : ℤ :=
  match m with
  | .M1 => t.c4dt
  | .M2 => t.c3dt

/-- Phase compare values up to the ADC trigger, which is the one of a full duty. -/
structure TmrType.Safe (m : Motor) (t : TmrType) : Prop where
  phases : ∀ c ∈ t.phases m, 0 ≤ c ∧ c ≤ 4500
  trigger : t.trigger m = 4500

theorem phaseCompare_mem {pwm : ℚ} (h0 : 0 ≤ pwm) (h1 : pwm ≤ 1) :
    0 ≤ phaseCompare pwm ∧ phaseCompare pwm ≤ 4500 := by
  have e : pwm * ALL_Duty * 0.9 = pwm * 4500 := by norm_num [ALL_Duty]; ring
  rw [phaseCompare, toUInt32, e]
  exact truncToInt_mem (by linarith) (by push_cast; linarith)

/-- A call through a motor's PWM pointer with duties in `[0, 1]`. -/
theorem callSetPWM_safe {m : Motor} {a b c : ℚ} {tmr : Timers} (ha : 0 ≤ a ∧ a ≤ 1)
    (hb : 0 ≤ b ∧ b ≤ 1) (hc : 0 ≤ c ∧ c ≤ 1) (h : (tmr.of m).trigger m = 4500) :
    ((callSetPWM m.setPWM a b c tmr).of m).Safe m := by
  have pa := phaseCompare_mem ha.1 ha.2
  have pb := phaseCompare_mem hb.1 hb.2
  have pc := phaseCompare_mem hc.1 hc.2
  have key : ∀ x ∈ [phaseCompare a, phaseCompare b, phaseCompare c], 0 ≤ x ∧ x ≤ 4500 := by
    simp only [List.mem_cons, List.not_mem_nil, or_false]
    rintro x (rfl | rfl | rfl) <;> assumption
  cases m <;> exact ⟨key, h⟩

theorem limit_mem (x : ℚ) {low high : ℚ} (h : low ≤ high) :
    low ≤ limit x low high ∧ limit x low high ≤ high := by
  unfold limit
  split_ifs with h1 h2
  · exact ⟨h, le_rfl⟩
  · exact ⟨le_rfl, h⟩
  · exact ⟨(not_le.mp h2).le, (not_le.mp h1).le⟩

/-! ## The invariant -/

/-- The limits of the three controllers, and what they have written. -/
structure CommandsSafe (pFOC : FOCState ℚ) : Prop where
  idMax : pFOC.idPID.outMax = 6
  iqMax : pFOC.iqPID.outMax = 6
  speedMax : pFOC.speedPID.outMax = 40
  Ud : |pFOC.Ud| ≤ 6
  Uq : |pFOC.Uq| ≤ 6
  speedOut : |pFOC.speedPID.out| ≤ 40

theorem SameButAngles.commandsSafe {p q : FOCState ℚ} (h : SameButAngles p q)
    (hp : CommandsSafe p) : CommandsSafe q := by
  obtain ⟨a, e, c, z, rfl⟩ := h
  exact ⟨hp.idMax, hp.iqMax, hp.speedMax, hp.Ud, hp.Uq, hp.speedOut⟩

structure MotorView.Safe (m : Motor) (v : MotorView) : Prop where
  wired : WiredFor m v.foc
  commands : CommandsSafe v.foc
  Ts : v.sv.Ts = 1
  duties : v.sv.InPeriod
  tmr : v.tmr.Safe m

/-! ## Control steps -/

/-- Measuring leaves the controllers and the voltages alone. -/
theorem focMeasure_safe (hw : Inputs) {pFOC : FOCState ℚ} (lpf : LPFCurrent)
    (h : CommandsSafe pFOC) : CommandsSafe (focMeasure hw pFOC lpf).1 := by
  have hc := (getCorrectedElectricalAngle_same hw pFOC).commandsSafe h
  rw [focMeasure]
  generalize getCorrectedElectricalAngle hw pFOC = p at hc ⊢
  have hs : CommandsSafe (sampleAD hw p) := by
    unfold sampleAD
    split_ifs <;> exact ⟨hc.idMax, hc.iqMax, hc.speedMax, hc.Ud, hc.Uq, hc.speedOut⟩
  generalize sampleAD hw p = p' at hs ⊢
  exact ⟨hs.idMax, hs.iqMax, hs.speedMax, hs.Ud, hs.Uq, hs.speedOut⟩

theorem focControl_safe {pFOC : FOCState ℚ} (h : CommandsSafe pFOC) :
    CommandsSafe (focControl pFOC) := by
  have hid := piControl_abs_le pFOC.idPID pFOC.Id pFOC.tarid
  have hiq : |(focControl pFOC).iqPID.out| ≤ |pFOC.iqPID.outMax| := by
    rw [focControl_iqPID]
    exact piControl_abs_le _ _ _
  refine ⟨?_, ?_, ?_, ?_, ?_, ?_⟩
  · rw [focControl_idPID, piControl_outMax, h.idMax]
  · rw [focControl_iqPID, piControl_outMax, h.iqMax]
  · rw [focControl_speedPID, h.speedMax]
  · rwa [h.idMax, Nat.abs_ofNat, ← focControl_idPID, ← focControl_Ud] at hid
  · rwa [h.iqMax, Nat.abs_ofNat, ← focControl_Uq] at hiq
  · rw [focControl_speedPID]
    exact h.speedOut

theorem MotorView.Safe.control {m : Motor} {v : MotorView} (h : v.Safe m) (ad : ADBuffer)
    (angle : ℚ) : (v.control m ad angle).Safe m := by
  have hw := h.wired.of_wiring (focMeasure_wiring (.both ad angle) v.foc v.lpf)
  have hm := focMeasure_safe (.both ad angle) v.lpf h.commands
  unfold MotorView.control focContorl
  generalize focMeasure (.both ad angle) v.foc v.lpf = measured at hw hm ⊢
  have hdut := svpwm_inPeriod h.duties (focControl measured.1).Ualpha (focControl measured.1).Ubeta
  have hset : (focControl measured.1).SetPWM = m.setPWM := hw.2
  have hTs := svpwm_Ts v.sv (focControl measured.1).Ualpha (focControl measured.1).Ubeta
  rw [h.Ts] at hTs
  refine ⟨⟨hw.1, hset⟩, focControl_safe hm, hTs, hdut, ?_⟩
  obtain ⟨-, ha, hb, hc⟩ := hdut
  rw [hTs] at ha hb hc
  simp only [setSVpwm, hset]
  exact callSetPWM_safe ha hb hc (by cases m <;> exact h.tmr.trigger)

/-! ## The other events -/

theorem MotorView.Safe.tick {m : Motor} {v : MotorView} (h : v.Safe m) : v.tick.Safe m := by
  have hs := piControl_abs_le v.foc.speedPID
    (calculateSpeed v.foc 0.001 v.lpfSpeed).1.speed v.foc.tarSpeed
  have hc := h.commands
  rw [hc.speedMax, Nat.abs_ofNat] at hs
  exact ⟨h.wired, ⟨hc.idMax, hc.iqMax, hc.speedMax, hc.Ud, hc.Uq, hs⟩, h.Ts, h.duties, h.tmr⟩

/-- A commit writes gains and targets, and the limits the boot sequence writes. -/
theorem applyCurrent_safe {pFOC : FOCState ℚ} (pid : PIDParams ℚ) (h : CommandsSafe pFOC) :
    CommandsSafe (applyCurrent pFOC pid).1 := by
  unfold applyCurrent
  split_ifs
  · exact ⟨by norm_num [setCurrentPIDParams], by norm_num [setCurrentPIDParams], h.speedMax,
      h.Ud, h.Uq, h.speedOut⟩
  · exact h

theorem applySpeed_safe {pFOC : FOCState ℚ} (pid : PIDParams ℚ) (h : CommandsSafe pFOC) :
    CommandsSafe (applySpeed pFOC pid).1 := by
  unfold applySpeed
  split_ifs
  · exact ⟨h.idMax, h.iqMax, by norm_num [setSpeedPIDParams], h.Ud, h.Uq, h.speedOut⟩
  · exact h

theorem MotorView.Safe.apply {m : Motor} {v : MotorView} (h : v.Safe m) : v.apply.Safe m :=
  ⟨motorStep_wired (fun _ => 0) m m v .apply h.wired,
    applySpeed_safe _ (applyCurrent_safe v.params h.commands), h.Ts, h.duties, h.tmr⟩

theorem MotorView.Safe.parse {m : Motor} {v : MotorView} (h : v.Safe m)
    (strtof : List UInt8 → ℚ) (msg : List UInt8) : (v.parse strtof msg).Safe m := by
  unfold MotorView.parse
  split
  · exact h
  · exact ⟨h.wired, h.commands, h.Ts, h.duties, h.tmr⟩

theorem motorStep_safe (strtof : List UInt8 → ℚ) (m : Motor) (v : MotorView) (e : MotorEvent)
    (h : v.Safe m) : (motorStep strtof m v e).Safe m := by
  cases e with
  | control ad angle => exact h.control ad angle
  | tick => exact h.tick
  | apply => exact h.apply
  | parse msg => exact h.parse strtof msg

/-! ## Boot -/

theorem svpwmInit_inPeriod : svpwmInit.InPeriod := by
  norm_num [svpwmInit, SVpwmState.InPeriod]

theorem bootFoc_safe (m : Motor) (fg : ℕ → Inputs) : CommandsSafe (bootFoc m fg) := by
  refine ⟨?_, ?_, ?_, ?_, ?_, ?_⟩ <;>
    norm_num [bootFoc, bootPID, setCurrentPIDTar, setCurrentPIDParams, setSpeedPIDTar,
      setSpeedPIDParams, firstGet, motorInit, zeroPID]

theorem bootTmr_trigger (m : Motor) : (bootTmr.of m).trigger m = 4500 := by
  cases m <;> decide +kernel

/-- Holding the rotor writes the drag voltage to the record. -/
theorem strongDrag_commands {pFOC : FOCState ℚ} (tmr : Timers) (h : CommandsSafe pFOC) :
    CommandsSafe (strongDrag pFOC tmr).1 := by
  refine ⟨h.idMax, h.iqMax, h.speedMax, ?_, ?_, h.speedOut⟩ <;>
    norm_num [strongDrag, setpwm, limitPhases, strongDragVoltages, strongDragAngle,
      invParkTransform, invClarkeTransform]

/-- It writes the timer through the last clamp of `setpwm`. -/
theorem strongDrag_tmr {m : Motor} {pFOC : FOCState ℚ} {tmr : Timers} (h : WiredFor m pFOC)
    (ht : (tmr.of m).trigger m = 4500) : ((strongDrag pFOC tmr).2.of m).Safe m := by
  have hlim : ∀ x, 0 ≤ limit x 0.0 1.0 ∧ limit x 0.0 1.0 ≤ 1 := by
    intro x
    have h01 : (0.0 : ℚ) ≤ 1.0 := by norm_num
    have hx := limit_mem x h01
    norm_num at hx ⊢
    exact hx
  simp only [strongDrag, setpwm, (limitPhases_wired (strongDragVoltages_wired h)).2]
  exact callSetPWM_safe (hlim _) (hlim _) (hlim _) ht

theorem bootView_safe (m : Motor) (fg ai : ℕ → Inputs) : (bootView m fg ai).Safe m := by
  have hw := bootFoc_wired m fg
  have hc := strongDrag_commands ⟨bootTmr.of m, bootTmr.of m⟩ (bootFoc_safe m fg)
  have ht : ((strongDrag (bootFoc m fg) ⟨bootTmr.of m, bootTmr.of m⟩).2.of m).Safe m :=
    strongDrag_tmr hw (by cases m <;> exact bootTmr_trigger _)
  have hd : WiredFor m (strongDrag (bootFoc m fg) ⟨bootTmr.of m, bootTmr.of m⟩).1 :=
    limitPhases_wired (strongDragVoltages_wired hw)
  unfold bootView angleInit
  generalize strongDrag (bootFoc m fg) ⟨bootTmr.of m, bootTmr.of m⟩ = dragged at hc ht hd ⊢
  have hz := angleInitZero_same ai dragged.1
  exact ⟨hz.wired hd, hz.commandsSafe hc, by norm_num [svpwmInit], svpwmInit_inPeriod, ht⟩

/-! ## Result -/

/-- **Actuator safety.**  After boot and any events, whatever the readings, the gains and
the targets, both motors are within their limits. -/
theorem actuator_safe (strtof : List UInt8 → ℚ) (b : BootInputs) (evs : List Event) (m : Motor) :
    let v := (run (step strtof) (boot b) evs).view m
    |v.foc.Ud| ≤ 6 ∧ |v.foc.Uq| ≤ 6 ∧ |v.foc.speedPID.out| ≤ 40 ∧
      (0 ≤ v.sv.Ta ∧ v.sv.Ta ≤ v.sv.Ts) ∧ (0 ≤ v.sv.Tb ∧ v.sv.Tb ≤ v.sv.Ts) ∧
      (0 ≤ v.sv.Tc ∧ v.sv.Tc ≤ v.sv.Ts) ∧
      (∀ c ∈ v.tmr.phases m, 0 ≤ c ∧ c ≤ 4500) ∧ v.tmr.trigger m = 4500 := by
  intro v
  have hv : v.Safe m := by
    show ((run (step strtof) (boot b) evs).view m).Safe m
    rw [run_view strtof m evs (boot b) (boot_wired b), view_boot]
    exact run_invariant (motorStep_safe strtof m) _ _ (bootView_safe m _ _)
  exact ⟨hv.commands.Ud, hv.commands.Uq, hv.commands.speedOut, hv.duties.2.1,
    hv.duties.2.2.1, hv.duties.2.2.2, hv.tmr.phases, hv.tmr.trigger⟩

end At32Foc
