import At32Foc.ActuatorSafety
import At32Foc.MeasuredCurrents
import At32Foc.TimerTick
import At32Foc.ZeroCalibration

/-!
# Range of the whole record

With readings as the peripherals give them (12-bit words of the ADC, angles of the encoder's
decoder), nothing that a motor measures or works out from a measurement ever leaves a fixed
range, whatever the host sends and in whatever order the interrupts come
(`record_in_range`): the angles stay on one turn, the currents of all three frames, the speed
and the voltage command stay within the limits of the sensors, and so does the error that the
q-axis controller remembers.  What the host can still choose are the targets of the d-axis
and of the speed.
-/

namespace At32Foc

open ControlLib

/-! ## Readings -/

def ADBuffer.TwelveBit (ad : ADBuffer) : Prop := ad.ad0.toNat ≤ 4095 ∧ ad.ad1.toNat ≤ 4095

/-- The range of `MT6701_GetAngle` (`mt6701GetAngle_mem`). -/
def OnTurn (angle : ℚ) : Prop := 0 ≤ angle ∧ angle < _2PI

/-- What a control step finds is within the range of its sensors. -/
def Event.Physical : Event → Prop
  | .adc1 ad angle | .adc3 ad angle => ad.TwelveBit ∧ OnTurn angle
  | .tmr5 | .apply | .parse _ => True

def MotorEvent.Physical : MotorEvent → Prop
  | .control ad angle => ad.TwelveBit ∧ OnTurn angle
  | .tick | .apply | .parse _ => True

/-- So is what the calibrations find. -/
structure BootInputs.Physical (b : BootInputs) : Prop where
  firstGet : ∀ m, TwelveBit m (b.firstGet m)
  angleInit : ∀ m, ∀ k < 12, OnTurn ((b.angleInit m k).angle m)

theorem Event.Physical.forMotor {e : Event} (h : e.Physical) {m : Motor} {o : MotorEvent}
    (ho : e.forMotor m = some o) : o.Physical := by
  cases e with
  | adc1 ad angle => cases m <;> cases ho; exact h
  | adc3 ad angle => cases m <;> cases ho; exact h
  | tmr5 => cases ho; trivial
  | apply => cases ho; trivial
  | parse msg =>
    simp only [Event.forMotor, Option.ite_none_right_eq_some, Option.some.injEq] at ho
    obtain ⟨-, rfl⟩ := ho
    trivial

/-! ## The ranges -/

structure AnglesOnTurn (p : FOCState ℚ) : Prop where
  mechanicalAngle : OnTurn p.mechanicalAngle
  elecAngle : OnTurn p.elecAngle
  corrAngle : OnTurn p.corrAngle
  zero : OnTurn p.zero
  speedLastAngle : OnTurn p.speedLastAngle

structure CurrentsLimited (p : FOCState ℚ) : Prop where
  Ia : |p.Ia| ≤ 165
  Ib : |p.Ib| ≤ 165
  Ic : |p.Ic| ≤ 330
  Ialpha : |p.Ialpha| ≤ 165
  Ibeta : |p.Ibeta| ≤ 286
  Id : |p.Id| ≤ 331
  Iq : |p.Iq| ≤ 331

/-- What the controllers remember of their measurements. -/
structure LoopsLimited (p : FOCState ℚ) : Prop where
  idPre : |p.idPID.pre| ≤ 331
  iqPre : |p.iqPID.pre| ≤ 331
  iqTar : |p.iqPID.tar| ≤ 40
  iqBias : |p.iqPID.bias| ≤ 371
  iqLastBias : |p.iqPID.lastBias| ≤ 371
  speedPre : |p.speedPID.pre| ≤ 3141.59

structure RecordRanged (p : FOCState ℚ) : Prop where
  voltageAOffset : p.current.voltageAOffset.toNat ≤ 4095
  angles : AnglesOnTurn p
  currents : CurrentsLimited p
  speed : |p.speed| ≤ 3141.59
  loops : LoopsLimited p
  Ualpha : |p.Ualpha| ≤ 8.49
  Ubeta : |p.Ubeta| ≤ 8.49

/-- The invariant of a motor's machine, with its filters. -/
structure MotorView.Ranged (v : MotorView) : Prop where
  record : RecordRanged v.foc
  filter : v.lpf.InRange
  filtered : v.foc.Id = v.lpf.Id.filtered ∧ v.foc.Iq = v.lpf.Iq.filtered
  estimating : v.Estimating

/-! ## A control step -/

/-- The angles of a control step. -/
theorem getCorrectedElectricalAngle_onTurn {m : Motor} {hw : Inputs} {pFOC : FOCState ℚ}
    (hm : pFOC.current.Mflag = m.flag) (hangle : OnTurn (hw.angle m)) (h : AnglesOnTurn pFOC) :
    AnglesOnTurn (getCorrectedElectricalAngle hw pFOC) := by
  have hcorr := getCorrectedElectricalAngle_mem hw pFOC
  unfold getCorrectedElectricalAngle at hcorr ⊢
  rw [electricalAngle_eq hw hm] at hcorr ⊢
  exact ⟨hangle, angleLimit_mem _, hcorr, h.zero, h.speedLastAngle⟩

theorem focCurrents_limited {pFOC : FOCState ℚ} {lpf : LPFCurrent}
    (h : pFOC.current.TwelveBit) (hθ : OnTurn pFOC.corrAngle) (hf : lpf.InRange) :
    CurrentsLimited (focCurrents pFOC lpf).1 := by
  have hA := phaseCurrent_abs_le h.adA h.voltageAOffset
  have hB := phaseCurrent_abs_le h.adB h.voltageAOffset
  obtain ⟨halpha, hbeta⟩ := clarke_abs_le h
  obtain ⟨hd, hq⟩ := rawCurrents_abs_le h ⟨hθ.1, hθ.2.le⟩
  obtain ⟨hfilter, hId, hIq⟩ := focCurrents_filters pFOC lpf
  have hout := lpfStep_inRange hf hd hq
  rw [← hfilter] at hout
  refine ⟨?_, ?_, ?_, halpha, hbeta, ?_, ?_⟩
  · rw [show (focCurrents pFOC lpf).1.Ia = -phaseCurrent _ _ from rfl, abs_neg]
    exact hA
  · rw [show (focCurrents pFOC lpf).1.Ib = -phaseCurrent _ _ from rfl, abs_neg]
    exact hB
  · have hc : (focCurrents pFOC lpf).1.Ic =
        0 - phaseCurrent pFOC.current.adA pFOC.current.voltageAOffset -
          phaseCurrent pFOC.current.adB pFOC.current.voltageAOffset := rfl
    rw [hc]
    rw [abs_le] at hA hB ⊢
    constructor <;> linarith
  · rw [hId]
    exact abs_le.mpr hout.Id
  · rw [hIq]
    exact abs_le.mpr hout.Iq

/-- What a motor's part of the record is after its measurement. -/
structure Measured (pFOC p : FOCState ℚ) : Prop where
  angles : AnglesOnTurn p
  currents : CurrentsLimited p
  speed : p.speed = pFOC.speed
  speedPID : p.speedPID = pFOC.speedPID

theorem focMeasure_measured {m : Motor} {hw : Inputs} {pFOC : FOCState ℚ} {lpf : LPFCurrent}
    (hm : pFOC.current.Mflag = m.flag) (ho : pFOC.current.voltageAOffset.toNat ≤ 4095)
    (had : (hw.ad m).TwelveBit) (hangle : OnTurn (hw.angle m)) (h : AnglesOnTurn pFOC)
    (hf : lpf.InRange) : Measured pFOC (focMeasure hw pFOC lpf).1 := by
  have hturn := getCorrectedElectricalAngle_onTurn hm hangle h
  have hkeep : ∀ {p : FOCState ℚ}, SameButAngles pFOC p →
      p.current = pFOC.current ∧ p.speed = pFOC.speed ∧ p.speedPID = pFOC.speedPID := by
    rintro p ⟨a, e, c, z, rfl⟩
    exact ⟨rfl, rfl, rfl⟩
  obtain ⟨hcur, hspeed, hpid⟩ := hkeep (getCorrectedElectricalAngle_same hw pFOC)
  rw [focMeasure]
  generalize getCorrectedElectricalAngle hw pFOC = p at hturn hcur hspeed hpid ⊢
  rw [sampleAD_eq hw (m := m) (by rw [hcur, hm])]
  refine ⟨⟨hturn.1, hturn.2, hturn.3, hturn.4, hturn.5⟩, ?_, hspeed, hpid⟩
  exact focCurrents_limited ⟨had.2, had.1, by rw [hcur]; exact ho⟩ hturn.corrAngle hf

theorem focControl_loops {pFOC : FOCState ℚ} (hd : |pFOC.Id| ≤ 331) (hq : |pFOC.Iq| ≤ 331)
    (hout : |pFOC.speedPID.out| ≤ 40) (hpre : |pFOC.speedPID.pre| ≤ 3141.59) :
    LoopsLimited (focControl pFOC) := by
  have hbias : |pFOC.speedPID.out - pFOC.Iq| ≤ 371 := by
    rw [abs_le] at hq hout ⊢
    constructor <;> linarith
  exact ⟨hd, hq, hout, hbias, hbias, hpre⟩

/-- The controllers' voltages, turned. -/
theorem focControl_voltages {pFOC : FOCState ℚ} (h : CommandsSafe (focControl pFOC))
    (hθ : OnTurn pFOC.corrAngle) :
    |(focControl pFOC).Ualpha| ≤ 8.49 ∧ |(focControl pFOC).Ubeta| ≤ 8.49 :=
  invPark_abs_le { pFOC with
    Ud := (focControl pFOC).Ud, Uq := (focControl pFOC).Uq } h.Ud h.Uq ⟨hθ.1, hθ.2.le⟩

theorem MotorView.Ranged.control {m : Motor} {v : MotorView} (hs : v.Safe m) (h : v.Ranged)
    {ad : ADBuffer} {angle : ℚ} (had : ad.TwelveBit) (hangle : OnTurn angle) :
    (v.control m ad angle).Ranged := by
  have hr := h.record
  have hsafe : CommandsSafe (focControl (focMeasure (.both ad angle) v.foc v.lpf).1) :=
    (hs.control ad angle).commands
  have hoff : (v.control m ad angle).foc.current.voltageAOffset =
      v.foc.current.voltageAOffset :=
    congrArg Wiring.voltageAOffset
      (focContorl_wiring (.both ad angle) ⟨v.foc, v.sv, v.lpf, ⟨v.tmr, v.tmr⟩⟩)
  have had' : ((Inputs.both ad angle).ad m).TwelveBit := by rwa [Inputs.ad_both]
  have hlpf := focMeasure_inRange hs.wired.1 hr.voltageAOffset had' h.filter
  obtain ⟨ht, hc, hspeed, hpid⟩ := focMeasure_measured hs.wired.1 hr.voltageAOffset had'
    (by rwa [Inputs.angle_both]) hr.angles h.filter
  have hout := hs.commands.speedOut
  have hpre := hr.loops.speedPre
  rw [← hpid] at hout hpre
  obtain ⟨halpha, hbeta⟩ := focControl_voltages hsafe ht.corrAngle
  refine ⟨⟨?_, ?_, ?_, ?_, focControl_loops hc.Id hc.Iq hout hpre, halpha, hbeta⟩, hlpf,
    focMeasure_out (.both ad angle) v.foc v.lpf,
    motorStep_estimating (fun _ => 0) m v (.control ad angle) h.estimating⟩
  · rw [hoff]
    exact hr.voltageAOffset
  · exact ⟨ht.mechanicalAngle, ht.elecAngle, ht.corrAngle, ht.zero, ht.speedLastAngle⟩
  · exact ⟨hc.Ia, hc.Ib, hc.Ic, hc.Ialpha, hc.Ibeta, hc.Id, hc.Iq⟩
  · have hkeep : (v.control m ad angle).foc.speed = v.foc.speed := hspeed
    rw [hkeep]
    exact hr.speed

/-! ## The other events -/

/-- Two angles of one turn are less than half a turn apart, so a tick sees no more. -/
theorem rawSpeed_abs_le {pFOC : FOCState ℚ} (h : AnglesOnTurn pFOC) :
    |rawSpeed pFOC 0.001| ≤ 3141.59 := by
  have hd := abs_angleDiff_le h.mechanicalAngle h.speedLastAngle
  have hdt : (0 : ℚ) < |0.001| := by norm_num
  rw [rawSpeed, abs_div, div_le_iff₀ hdt]
  calc |angleDiff pFOC.mechanicalAngle pFOC.speedLastAngle|
      ≤ 3.14159 := hd
    _ = 3141.59 * |0.001| := by norm_num

theorem MotorView.Ranged.tick {v : MotorView} (h : v.Ranged) : v.tick.Ranged := by
  obtain ⟨hest, hout⟩ := tick_estimate h.estimating
  obtain ⟨hoff, hangles, hc, hv, hl, halpha, hbeta⟩ := h.record
  have hspeed : |v.tick.foc.speed| ≤ 3141.59 := by
    rw [hout]
    exact abs_le.mpr (lowPass_mem_Icc lpfAlpha_mem (abs_le.mp hv)
      (abs_le.mp (rawSpeed_abs_le hangles)))
  refine ⟨⟨hoff, ?_, ?_, hspeed, ?_, halpha, hbeta⟩, h.filter, h.filtered, hest⟩
  · exact ⟨hangles.mechanicalAngle, hangles.elecAngle, hangles.corrAngle, hangles.zero,
      hangles.mechanicalAngle⟩
  · exact ⟨hc.Ia, hc.Ib, hc.Ic, hc.Ialpha, hc.Ibeta, hc.Id, hc.Iq⟩
  · exact ⟨hl.idPre, hl.iqPre, hl.iqTar, hl.iqBias, hl.iqLastBias, hspeed⟩

theorem applyCurrent_ranged {p : FOCState ℚ} (pid : PIDParams ℚ) (h : RecordRanged p) :
    RecordRanged (applyCurrent p pid).1 := by
  obtain ⟨hoff, ht, hc, hv, hl, halpha, hbeta⟩ := h
  unfold applyCurrent
  split_ifs
  · exact ⟨hoff, ⟨ht.1, ht.2, ht.3, ht.4, ht.5⟩, ⟨hc.1, hc.2, hc.3, hc.4, hc.5, hc.6, hc.7⟩, hv,
      ⟨hl.1, hl.2, hl.3, hl.4, hl.5, hl.6⟩, halpha, hbeta⟩
  · exact ⟨hoff, ht, hc, hv, hl, halpha, hbeta⟩

theorem applySpeed_ranged {p : FOCState ℚ} (pid : PIDParams ℚ) (h : RecordRanged p) :
    RecordRanged (applySpeed p pid).1 := by
  obtain ⟨hoff, ht, hc, hv, hl, halpha, hbeta⟩ := h
  unfold applySpeed
  split_ifs
  · exact ⟨hoff, ⟨ht.1, ht.2, ht.3, ht.4, ht.5⟩, ⟨hc.1, hc.2, hc.3, hc.4, hc.5, hc.6, hc.7⟩, hv,
      ⟨hl.1, hl.2, hl.3, hl.4, hl.5, hl.6⟩, halpha, hbeta⟩
  · exact ⟨hoff, ht, hc, hv, hl, halpha, hbeta⟩

theorem apply_currents (v : MotorView) :
    v.apply.foc.Id = v.foc.Id ∧ v.apply.foc.Iq = v.foc.Iq := by
  have hcur (p : FOCState ℚ) (pid : PIDParams ℚ) :
      (applyCurrent p pid).1.Id = p.Id ∧ (applyCurrent p pid).1.Iq = p.Iq := by
    unfold applyCurrent
    split_ifs <;> exact ⟨rfl, rfl⟩
  have hspeed (p : FOCState ℚ) (pid : PIDParams ℚ) :
      (applySpeed p pid).1.Id = p.Id ∧ (applySpeed p pid).1.Iq = p.Iq := by
    unfold applySpeed
    split_ifs <;> exact ⟨rfl, rfl⟩
  obtain ⟨hd, hq⟩ := hcur v.foc v.params
  obtain ⟨hd', hq'⟩ := hspeed (applyCurrent v.foc v.params).1 (applyCurrent v.foc v.params).2
  exact ⟨hd'.trans hd, hq'.trans hq⟩

theorem motorStep_ranged (strtof : List UInt8 → ℚ) (m : Motor) (v : MotorView) (e : MotorEvent)
    (h : v.Safe m ∧ v.Ranged) (he : e.Physical) :
    (motorStep strtof m v e).Safe m ∧ (motorStep strtof m v e).Ranged := by
  refine ⟨motorStep_safe strtof m v e h.1, ?_⟩
  cases e with
  | control ad angle => exact h.2.control h.1 he.1 he.2
  | tick => exact h.2.tick
  | apply =>
    obtain ⟨hd, hq⟩ := apply_currents v
    exact ⟨applySpeed_ranged _ (applyCurrent_ranged v.params h.2.record), h.2.filter,
      ⟨hd.trans h.2.filtered.1, hq.trans h.2.filtered.2⟩,
      motorStep_estimating strtof m v .apply h.2.estimating⟩
  | parse msg =>
    rw [motorStep, MotorView.parse]
    split
    · exact h.2
    · exact ⟨h.2.record, h.2.filter, h.2.filtered,
        ⟨h.2.estimating.tuned, h.2.estimating.speed⟩⟩

/-! ## Boot -/

theorem onTurn_zero : OnTurn 0.0 := by
  norm_num [OnTurn, _2PI]

/-- The mean of ten readings of a turn is on it. -/
theorem angleInitZero_onTurn {m : Motor} {hw : ℕ → Inputs} {pFOC : FOCState ℚ}
    (h : WiredFor m pFOC) (hangle : ∀ k < 12, OnTurn ((hw k).angle m))
    (hlast : OnTurn pFOC.speedLastAngle) : AnglesOnTurn (angleInitZero hw pFOC) := by
  have hzero : OnTurn (angleInitZero hw pFOC).zero := by
    rw [angleInitZero_zero hw h]
    refine mean_mem (by simp [angleInitSamples]) fun e he => ?_
    obtain ⟨i, -, rfl⟩ := List.mem_map.mp he
    exact sampleAngle_mem m _
  obtain ⟨a, e, c, z, hz⟩ := angleInitZero_same hw pFOC
  have hl : (angleInitZero hw pFOC).speedLastAngle = pFOC.speedLastAngle := by rw [hz]
  rw [angleInitZero] at hzero hl ⊢
  have hm := ((electricalAngle_same (hw 0) pFOC).trans
    ((angleInitLoop_same (fun i => hw (i + 1)) 10 _).trans (angleInitMean_same 10 _))).wired h
  generalize angleInitMean 10 (angleInitLoop (fun i => hw (i + 1)) 10
    (electricalAngle (hw 0) pFOC)) = p at hzero hl hm ⊢
  have hcorr := getCorrectedElectricalAngle_mem (hw 11) p
  have helec : (getCorrectedElectricalAngle (hw 11) p).elecAngle = sampleAngle m (hw 11) :=
    electricalAngle_elecAngle (hw 11) hm
  have hmech : (getCorrectedElectricalAngle (hw 11) p).mechanicalAngle = (hw 11).angle m := by
    rw [getCorrectedElectricalAngle, electricalAngle_eq (hw 11) hm.1]
  refine ⟨?_, ?_, hcorr, hzero, ?_⟩
  · rw [hmech]
    exact hangle 11 (by decide)
  · rw [helec]
    exact sampleAngle_mem m _
  · rw [hl]
    exact hlast

theorem SameButAngles.ranged {p q : FOCState ℚ} (h : SameButAngles p q) (hp : RecordRanged p)
    (hq : AnglesOnTurn q) : RecordRanged q := by
  obtain ⟨a, e, c, z, rfl⟩ := h
  obtain ⟨hoff, -, hc, hv, hl, halpha, hbeta⟩ := hp
  exact ⟨hoff, hq, ⟨hc.1, hc.2, hc.3, hc.4, hc.5, hc.6, hc.7⟩, hv,
    ⟨hl.1, hl.2, hl.3, hl.4, hl.5, hl.6⟩, halpha, hbeta⟩

/-- The record once the rotor is held: only the drag voltage is not zero. -/
theorem strongDrag_ranged {pFOC : FOCState ℚ} (tmr : Timers) (h : RecordRanged pFOC) :
    RecordRanged (strongDrag pFOC tmr).1 := by
  obtain ⟨hoff, ht, hc, hv, hl, -, -⟩ := h
  have hturn : AnglesOnTurn (strongDragAngle { pFOC with Ud := 2.0, Uq := 0.0 }) :=
    ⟨onTurn_zero, angleLimit_mem _, correctedAngle_mem _ _, ht.zero, ht.speedLastAngle⟩
  obtain ⟨halpha, hbeta⟩ := invPark_abs_le (strongDragAngle { pFOC with Ud := 2.0, Uq := 0.0 })
    (by norm_num [strongDragAngle]) (by norm_num [strongDragAngle])
    ⟨hturn.corrAngle.1, hturn.corrAngle.2.le⟩
  exact ⟨hoff, ⟨hturn.1, hturn.2, hturn.3, hturn.4, hturn.5⟩,
    ⟨hc.1, hc.2, hc.3, hc.4, hc.5, hc.6, hc.7⟩, hv, ⟨hl.1, hl.2, hl.3, hl.4, hl.5, hl.6⟩,
    halpha, hbeta⟩

theorem bootFoc_ranged {m : Motor} {fg : ℕ → Inputs} (hfg : TwelveBit m fg) :
    RecordRanged (bootFoc m fg) := by
  have hoff : (bootFoc m fg).current.voltageAOffset.toNat ≤ 4095 :=
    firstGetCurrent_offset_le hfg rfl
  refine ⟨hoff, ⟨?_, ?_, ?_, ?_, ?_⟩, ⟨?_, ?_, ?_, ?_, ?_, ?_, ?_⟩, ?_, ⟨?_, ?_, ?_, ?_, ?_, ?_⟩,
    ?_, ?_⟩ <;>
    norm_num [bootFoc, bootPID, setCurrentPIDTar, setCurrentPIDParams, setSpeedPIDTar,
      setSpeedPIDParams, firstGet, motorInit, zeroPID, OnTurn, _2PI]

theorem bootView_ranged {m : Motor} {fg ai : ℕ → Inputs} (hfg : TwelveBit m fg)
    (hai : ∀ k < 12, OnTurn ((ai k).angle m)) : (bootView m fg ai).Ranged := by
  have hdrag := strongDrag_ranged ⟨bootTmr.of m, bootTmr.of m⟩ (bootFoc_ranged hfg)
  have hwired : WiredFor m (strongDrag (bootFoc m fg) ⟨bootTmr.of m, bootTmr.of m⟩).1 :=
    limitPhases_wired (strongDragVoltages_wired (bootFoc_wired m fg))
  obtain ⟨ht, hd, hq⟩ := lpfInit_tuned ⟨lpfZero, lpfZero⟩
  have h0 : (0 : ℚ) ∈ Set.Icc (-331) 331 := ⟨by norm_num, by norm_num⟩
  have hzero : (bootView m fg ai).foc.Id = 0 ∧ (bootView m fg ai).foc.Iq = 0 := by
    obtain ⟨a, e, c, z, hz⟩ :=
      angleInitZero_same ai (strongDrag (bootFoc m fg) ⟨bootTmr.of m, bootTmr.of m⟩).1
    have hId : (strongDrag (bootFoc m fg) ⟨bootTmr.of m, bootTmr.of m⟩).1.Id = 0 := by
      show (0.0 : ℚ) = 0
      norm_num
    have hIq : (strongDrag (bootFoc m fg) ⟨bootTmr.of m, bootTmr.of m⟩).1.Iq = 0 := by
      show (0.0 : ℚ) = 0
      norm_num
    show (angleInitZero ai _).Id = 0 ∧ (angleInitZero ai _).Iq = 0
    rw [hz]
    exact ⟨hId, hIq⟩
  exact ⟨(angleInitZero_same ai _).ranged hdrag
      (angleInitZero_onTurn hwired hai hdrag.angles.speedLastAngle),
    ⟨ht, hd.symm ▸ h0, hq.symm ▸ h0⟩, ⟨hzero.1.trans hd.symm, hzero.2.trans hq.symm⟩,
    bootView_estimating m fg ai⟩

/-! ## The system -/

/-- The invariant of a run, for one motor. -/
structure Sys.Ranged (m : Motor) (s : Sys) : Prop where
  wired : Wired s
  safe : (s.view m).Safe m
  view : (s.view m).Ranged

theorem boot_ranged {b : BootInputs} (hb : b.Physical) (m : Motor) : (boot b).Ranged m := by
  refine ⟨boot_wired b, ?_, ?_⟩ <;> rw [view_boot]
  · exact bootView_safe m _ _
  · exact bootView_ranged
      (fun k hk => by rw [samplesA, samplesB, Inputs.ad_own]; exact hb.firstGet m k hk)
      fun k hk => by rw [Inputs.angle_own]; exact hb.angleInit m k hk

theorem step_ranged (strtof : List UInt8 → ℚ) (m : Motor) (s : Sys) (e : Event)
    (h : s.Ranged m) (he : e.Physical) : (step strtof s e).Ranged m := by
  have hw := step_wired strtof s e h.wired
  cases ho : e.forMotor m with
  | none =>
    have hv := view_step_none strtof h.wired ho
    exact ⟨hw, hv ▸ h.safe, hv ▸ h.view⟩
  | some o =>
    have hv := view_step_some strtof h.wired ho
    obtain ⟨hs, hr⟩ := motorStep_ranged strtof m _ o ⟨h.safe, h.view⟩ (he.forMotor ho)
    exact ⟨hw, hv ▸ hs, hv ▸ hr⟩

theorem run_ranged (strtof : List UInt8 → ℚ) {b : BootInputs} (hb : b.Physical)
    {evs : List Event} (hevs : ∀ e ∈ evs, e.Physical) (m : Motor) :
    (run (step strtof) (boot b) evs).Ranged m :=
  run_invariant_of (I := Sys.Ranged m) (C := fun _ e => e.Physical) (step_ranged strtof m) _ _
    (boot_ranged hb m) (allSteps_of_forall_mem _ _ _ hevs)

/-! ## Result -/

/-- **Range of the record.**  After a boot on physical readings, in every run on physical
readings, whatever the host sends: each motor's record is within the ranges of
`RecordRanged`. -/
theorem record_in_range (strtof : List UInt8 → ℚ) (b : BootInputs) (hb : b.Physical)
    (evs : List Event) (hevs : ∀ e ∈ evs, e.Physical) (m : Motor) :
    RecordRanged ((run (step strtof) (boot b) evs).view m).foc :=
  (run_ranged strtof hb hevs m).view.record

/-- A step at the limits of the sensors, then a tick. -/
theorem record_in_range_top :
    RecordRanged ((run (step fun _ => 0) (boot (.const ⟨⟨0, 0⟩, ⟨0, 0⟩, 0, 0⟩))
      [.adc1 ⟨4095, 4095⟩ (mt6701GetAngle 255 255 255), .tmr5]).view .M1).foc :=
  record_in_range _ _ ⟨fun m _ _ => by cases m <;> exact ⟨Nat.zero_le _, Nat.zero_le _⟩,
      fun m _ _ => by cases m <;> exact ⟨le_rfl, _2PI_pos⟩⟩ _
    (by
      intro e he
      simp only [List.mem_cons, List.not_mem_nil, or_false] at he
      rcases he with rfl | rfl
      · exact ⟨⟨le_rfl, le_rfl⟩, mt6701GetAngle_mem 255 255 255⟩
      · trivial) .M1

end At32Foc
