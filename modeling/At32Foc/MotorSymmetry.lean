import At32Foc.SingleMotor
import At32Foc.Parameters

/-!
# The two motors are alike

The source writes every part of the driver twice, once for each motor.  `mirror` exchanges the
motors: their readings, the digit of a command, the flag and the PWM function of a record, and
the timer channels of phase A and of the ADC trigger, which the two boards wire the other way
round.  The system commutes with it, through boot and every run:

    view m.other (run (step strtof) (boot b.mirror) (evs.map mirror)) =
      (view m (run (step strtof) (boot b) evs)).mirror m.other               (run_mirror)

so nothing one motor does differs from what the other does in its place.
-/

namespace At32Foc

open ControlLib

/-! ## The exchange -/

def Motor.other : Motor → Motor
  | .M1 => .M2
  | .M2 => .M1

def Inputs.mirror (hw : Inputs) : Inputs :=
  ⟨hw.Motor2ADValue, hw.Motor1ADValue, hw.mt6701_2, hw.mt6701_1⟩

/-- Phase A and the ADC trigger change places. -/
def TmrType.mirror (t : TmrType) : TmrType := ⟨t.c1dt, t.c2dt, t.c4dt, t.c3dt⟩

def CurrentState.rewire (m : Motor) (c : CurrentState) : CurrentState := { c with Mflag := m.flag }

/-- The record, as that of a motor. -/
def FOCState.rewire (m : Motor) (pFOC : FOCState ℚ) : FOCState ℚ :=
  { pFOC with current := pFOC.current.rewire m, SetPWM := m.setPWM }

def MotorView.mirror (m : Motor) (v : MotorView) : MotorView :=
  { v with foc := v.foc.rewire m, tmr := v.tmr.mirror }

/-- The command with the digit of the other motor. -/
def mirrorMessage (msg : List UInt8) : List UInt8 :=
  match parseName msg with
  | none => msg
  | some (g, name, text) => name ++ [95, digit g.other] ++ 58 :: text

def Event.mirror : Event → Event
  | .adc1 ad angle => .adc3 ad angle
  | .adc3 ad angle => .adc1 ad angle
  | .tmr5 => .tmr5
  | .apply => .apply
  | .parse msg => .parse (mirrorMessage msg)

def BootInputs.mirror (b : BootInputs) : BootInputs :=
  ⟨fun k => (b.firstGet2 k).mirror, fun k => (b.firstGet1 k).mirror,
    fun k => (b.angleInit2 k).mirror, fun k => (b.angleInit1 k).mirror⟩

example : mirrorMessage (cstr "Speed_KP_2:0.5") = cstr "Speed_KP_1:0.5" := by decide

/-! ## Messages -/

/-- A mirrored message says the same about the other motor. -/
theorem parseName_mirror (msg : List UInt8) :
    parseName (mirrorMessage msg) = (parseName msg).map fun c => (c.1.other, c.2.1, c.2.2) := by
  unfold mirrorMessage
  cases h : parseName msg with
  | none => exact h
  | some c =>
    obtain ⟨g, name, text⟩ := c
    obtain ⟨before, post, -, hcolon, hlen, rfl, -⟩ := parseName_eq_some_iff.mp h
    refine parseName_append g.other text ?_ ?_ (List.not_mem_nil : (95 : UInt8) ∉ [])
    · have hname : (58 : UInt8) ∉ name := fun h58 => hcolon (List.mem_append_left _ h58)
      rw [List.mem_append, not_or]
      exact ⟨hname, by cases g <;> decide⟩
    · simp only [List.length_append, List.length_cons, List.length_nil] at hlen ⊢
      omega

theorem commandGroup_mirror (msg : List UInt8) :
    commandGroup (mirrorMessage msg) = (commandGroup msg).map Motor.other := by
  rw [commandGroup, commandGroup, parseName_mirror, Option.map_map, Option.map_map]
  rfl

/-! ## A control step -/

/-- Two sets of readings that show one motor what the other shows the other. -/
def Inputs.Mirrors (m : Motor) (hw hw' : Inputs) : Prop :=
  hw'.ad m.other = hw.ad m ∧ hw'.angle m.other = hw.angle m

theorem Inputs.both_mirrors (m : Motor) (ad : ADBuffer) (angle : ℚ) :
    Inputs.Mirrors m (.both ad angle) (.both ad angle) := by
  simp [Inputs.Mirrors]

section Control

variable {m : Motor} {hw hw' : Inputs} {pFOC : FOCState ℚ}

theorem rewire_wired (m : Motor) (pFOC : FOCState ℚ) : WiredFor m (pFOC.rewire m) := ⟨rfl, rfl⟩

theorem electricalAngle_rewire (h : pFOC.current.Mflag = m.flag) (hh : Inputs.Mirrors m hw hw') :
    electricalAngle hw' (pFOC.rewire m.other) = (electricalAngle hw pFOC).rewire m.other := by
  rw [electricalAngle_eq hw h, electricalAngle_eq hw' (rewire_wired m.other pFOC).1, hh.2]
  rfl

theorem getCorrectedElectricalAngle_rewire (h : pFOC.current.Mflag = m.flag)
    (hh : Inputs.Mirrors m hw hw') :
    getCorrectedElectricalAngle hw' (pFOC.rewire m.other) =
      (getCorrectedElectricalAngle hw pFOC).rewire m.other := by
  rw [getCorrectedElectricalAngle, getCorrectedElectricalAngle, electricalAngle_rewire h hh]
  rfl

theorem sampleAD_rewire (h : pFOC.current.Mflag = m.flag) (hh : Inputs.Mirrors m hw hw') :
    sampleAD hw' (pFOC.rewire m.other) = (sampleAD hw pFOC).rewire m.other := by
  rw [sampleAD_eq hw h, sampleAD_eq hw' (rewire_wired m.other pFOC).1, hh.1]
  rfl

theorem focCurrents_rewire (m : Motor) (pFOC : FOCState ℚ) (lpf : LPFCurrent) :
    focCurrents (pFOC.rewire m) lpf =
      ((focCurrents pFOC lpf).1.rewire m, (focCurrents pFOC lpf).2) :=
  rfl

theorem focMeasure_rewire (lpf : LPFCurrent) (h : pFOC.current.Mflag = m.flag)
    (hh : Inputs.Mirrors m hw hw') :
    focMeasure hw' (pFOC.rewire m.other) lpf =
      ((focMeasure hw pFOC lpf).1.rewire m.other, (focMeasure hw pFOC lpf).2) := by
  have hc : (getCorrectedElectricalAngle hw pFOC).current.Mflag = m.flag :=
    (congrArg Wiring.Mflag (getCorrectedElectricalAngle_same hw pFOC).wiring).trans h
  rw [focMeasure, focMeasure, getCorrectedElectricalAngle_rewire h hh, sampleAD_rewire hc hh,
    focCurrents_rewire]

theorem focControl_rewire (m : Motor) (pFOC : FOCState ℚ) :
    focControl (pFOC.rewire m) = (focControl pFOC).rewire m := by
  simp only [focControl, currentPIControlID, currentPIControlIQ, invParkTransform,
    FOCState.rewire]

/-- The PWM functions write the same phases on the two boards. -/
theorem callSetPWM_mirror (m : Motor) (a b c : ℚ) (t : TmrType) :
    (callSetPWM m.other.setPWM a b c ⟨t.mirror, t.mirror⟩).of m.other =
      ((callSetPWM m.setPWM a b c ⟨t, t⟩).of m).mirror := by
  cases m <;> rfl

theorem control_mirror {v : MotorView} (h : WiredFor m v.foc) (ad : ADBuffer) (angle : ℚ) :
    (v.mirror m.other).control m.other ad angle = (v.control m ad angle).mirror m.other := by
  have hm := focMeasure_rewire v.lpf h.1 (Inputs.both_mirrors m ad angle)
  have hset := (h.of_wiring (focMeasure_wiring (.both ad angle) v.foc v.lpf)).2
  unfold MotorView.control focContorl
  have e1 : (v.mirror m.other).foc = v.foc.rewire m.other := rfl
  have e2 : (v.mirror m.other).lpf = v.lpf := rfl
  simp only [e1, e2, hm]
  generalize focMeasure (.both ad angle) v.foc v.lpf = measured at hset ⊢
  simp only [focControl_rewire]
  have hf : (focControl measured.1).SetPWM = m.setPWM := hset
  generalize focControl measured.1 = p at hf ⊢
  simp only [MotorView.mirror, MotorView.mk.injEq, true_and]
  refine ⟨rfl, ?_⟩
  simp only [setSVpwm, hf]
  exact callSetPWM_mirror m _ _ _ v.tmr

end Control

/-! ## The other events -/

theorem tick_mirror (m : Motor) (v : MotorView) : (v.mirror m).tick = v.tick.mirror m := rfl

theorem apply_mirror (m : Motor) (v : MotorView) : (v.mirror m).apply = v.apply.mirror m := by
  unfold MotorView.apply applyCurrent applySpeed MotorView.mirror
  dsimp only
  split_ifs <;> rfl

theorem parse_mirror (strtof : List UInt8 → ℚ) (m : Motor) (v : MotorView) (msg : List UInt8) :
    (v.mirror m).parse strtof (mirrorMessage msg) = (v.parse strtof msg).mirror m := by
  unfold MotorView.parse
  rw [parseName_mirror]
  cases parseName msg <;> rfl

/-- What an event is to a motor, its mirror image is to the other. -/
theorem forMotor_mirror (m : Motor) (e : Event) :
    e.mirror.forMotor m.other = (e.forMotor m).map fun o =>
      match o with
      | .parse msg => .parse (mirrorMessage msg)
      | o => o := by
  cases e with
  | adc1 ad angle => cases m <;> rfl
  | adc3 ad angle => cases m <;> rfl
  | tmr5 => rfl
  | apply => rfl
  | parse msg =>
    simp only [Event.mirror, Event.forMotor, commandGroup_mirror]
    cases commandGroup msg with
    | none => rfl
    | some g => cases g <;> cases m <;> rfl

section Step

variable (strtof : List UInt8 → ℚ)

/-- One step. -/
theorem step_mirror {m : Motor} {s s' : Sys} (hs : Wired s) (hs' : Wired s')
    (h : s'.view m.other = (s.view m).mirror m.other) (e : Event) :
    (step strtof s' e.mirror).view m.other = ((step strtof s e).view m).mirror m.other := by
  have he' := forMotor_mirror m e
  cases he : e.forMotor m with
  | none =>
    rw [he, Option.map_none] at he'
    rw [view_step_none strtof hs he, view_step_none strtof hs' he', h]
  | some o =>
    rw [he, Option.map_some] at he'
    rw [view_step_some strtof hs he, view_step_some strtof hs' he', h]
    cases o with
    | control ad angle =>
      have hw : WiredFor m (s.view m).foc := by
        cases m
        · exact hs.1
        · exact hs.2
      exact control_mirror hw ad angle
    | tick => exact tick_mirror m.other (s.view m)
    | apply => exact apply_mirror m.other (s.view m)
    | parse msg => exact parse_mirror strtof m.other (s.view m) msg

end Step

/-! ## Boot -/

theorem BootInputs.mirror_firstGet (m : Motor) (b : BootInputs) (k : ℕ) :
    Inputs.Mirrors m (b.firstGet m k) (b.mirror.firstGet m.other k) := by
  cases m <;> exact ⟨rfl, rfl⟩

theorem BootInputs.mirror_angleInit (m : Motor) (b : BootInputs) (k : ℕ) :
    Inputs.Mirrors m (b.angleInit m k) (b.mirror.angleInit m.other k) := by
  cases m <;> exact ⟨rfl, rfl⟩

theorem Inputs.Mirrors.own {m : Motor} {hw hw' : Inputs} (h : Inputs.Mirrors m hw hw') :
    Inputs.Mirrors m (hw.own m) (hw'.own m.other) := by
  refine ⟨?_, ?_⟩
  · rw [Inputs.ad_own, Inputs.ad_own, h.1]
  · rw [Inputs.angle_own, Inputs.angle_own, h.2]

section Boot

variable {m : Motor} {hw hw' : ℕ → Inputs} (hh : ∀ k, Inputs.Mirrors m (hw k) (hw' k))

include hh

theorem firstGetLoop_rewire (n : ℕ) {c : CurrentState} (h : c.Mflag = m.flag) :
    firstGetLoop hw' n (c.rewire m.other) = (firstGetLoop hw n c).rewire m.other := by
  induction n with
  | zero => rfl
  | succ n ih =>
    have hl := (firstGetLoop_Mflag hw n c).trans h
    rw [firstGetLoop_succ, firstGetLoop_succ, ih, firstGetStep_eq (hw n) hl]
    generalize firstGetLoop hw n c = c'
    rw [firstGetStep_eq (m := m.other) (hw' n) rfl, (hh n).1]
    rfl

theorem firstGetCurrent_rewire {c : CurrentState} (h : c.Mflag = m.flag) :
    firstGetCurrent hw' (c.rewire m.other) = (firstGetCurrent hw c).rewire m.other := by
  have hl := firstGetLoop_rewire hh 16 (c := { c with adB := 0, adA := 0 }) h
  have e : ({ c.rewire m.other with adB := 0, adA := 0 } : CurrentState) =
      CurrentState.rewire m.other { c with adB := 0, adA := 0 } := rfl
  rw [firstGetCurrent, firstGetCurrent]
  simp only [e, hl]
  generalize firstGetLoop hw 16 { c with adB := 0, adA := 0 } = c'
  rfl

theorem bootFoc_rewire : bootFoc m.other hw' = (bootFoc m hw).rewire m.other := by
  have hget := firstGetCurrent_rewire hh
    (c := (motorInit m.flag m.setPWM : FOCState ℚ).current) rfl
  have e : (motorInit m.other.flag m.other.setPWM : FOCState ℚ).current =
      (motorInit m.flag m.setPWM : FOCState ℚ).current.rewire m.other := rfl
  unfold bootFoc firstGet
  rw [e, hget]
  generalize firstGetCurrent hw (motorInit m.flag m.setPWM : FOCState ℚ).current = c
  rfl

theorem angleInitLoop_rewire (n : ℕ) {pFOC : FOCState ℚ} (h : WiredFor m pFOC) :
    angleInitLoop hw' n (pFOC.rewire m.other) =
      ((angleInitLoop hw n pFOC).1.rewire m.other, (angleInitLoop hw n pFOC).2) := by
  induction n with
  | zero => rfl
  | succ n ih =>
    have hl := ((angleInitLoop_same hw n pFOC).wired h).1
    rw [angleInitLoop_succ, angleInitLoop_succ, ih]
    simp only [angleInitStep, electricalAngle_rewire hl (hh n)]
    rfl

/-- The calibration reads the other encoder. -/
theorem angleInitZero_rewire {pFOC : FOCState ℚ} (h : WiredFor m pFOC) :
    angleInitZero hw' (pFOC.rewire m.other) = (angleInitZero hw pFOC).rewire m.other := by
  have h0 := (electricalAngle_same (hw 0) pFOC).wired h
  have hl := (angleInitLoop_same (fun i => hw (i + 1)) 10 (electricalAngle (hw 0) pFOC)).wired h0
  have hm := (angleInitMean_same 10 _).wired hl
  have hloop := angleInitLoop_rewire (fun k => hh (k + 1)) 10 h0
  have hmean : angleInitMean 10 (angleInitLoop (fun i => hw' (i + 1)) 10
      ((electricalAngle (hw 0) pFOC).rewire m.other)) =
        (angleInitMean 10 (angleInitLoop (fun i => hw (i + 1)) 10
          (electricalAngle (hw 0) pFOC))).rewire m.other := by
    rw [hloop]
    generalize angleInitLoop (fun i => hw (i + 1)) 10 (electricalAngle (hw 0) pFOC) = p
    rfl
  rw [angleInitZero, angleInitZero, electricalAngle_rewire h.1 (hh 0), hmean,
    getCorrectedElectricalAngle_rewire hm.1 (hh 11)]

end Boot

theorem strongDrag_rewire {m : Motor} {pFOC : FOCState ℚ} (h : WiredFor m pFOC) (t : TmrType) :
    (strongDrag (pFOC.rewire m.other) ⟨t.mirror, t.mirror⟩).1 =
        (strongDrag pFOC ⟨t, t⟩).1.rewire m.other ∧
      (strongDrag (pFOC.rewire m.other) ⟨t.mirror, t.mirror⟩).2.of m.other =
        ((strongDrag pFOC ⟨t, t⟩).2.of m).mirror := by
  have hv : strongDragVoltages (pFOC.rewire m.other) =
      (strongDragVoltages pFOC).rewire m.other := by
    simp only [strongDragVoltages, strongDragAngle, invParkTransform, invClarkeTransform,
      FOCState.rewire]
  have hset : (limitPhases (strongDragVoltages pFOC)).SetPWM = m.setPWM :=
    (limitPhases_wired (strongDragVoltages_wired h)).2
  unfold strongDrag setpwm
  rw [hv]
  generalize strongDragVoltages pFOC = p at hset ⊢
  refine ⟨rfl, ?_⟩
  simp only [hset]
  exact callSetPWM_mirror m _ _ _ t

/-- Both ADC triggers are programmed alike. -/
theorem bootTmr_mirror (m : Motor) : bootTmr.of m.other = (bootTmr.of m).mirror := by
  cases m <;> rfl

/-- The boot sequence of a motor, on the readings of the other. -/
theorem bootView_mirror {m : Motor} {fg fg' ai ai' : ℕ → Inputs}
    (hfg : ∀ k, Inputs.Mirrors m (fg k) (fg' k)) (hai : ∀ k, Inputs.Mirrors m (ai k) (ai' k)) :
    bootView m.other fg' ai' = (bootView m fg ai).mirror m.other := by
  have hw := bootFoc_wired m fg
  obtain ⟨h1, h2⟩ := strongDrag_rewire hw (bootTmr.of m)
  unfold bootView angleInit
  rw [bootFoc_rewire hfg, bootTmr_mirror]
  simp only [h1, h2]
  have hd : WiredFor m (strongDrag (bootFoc m fg) ⟨bootTmr.of m, bootTmr.of m⟩).1 :=
    limitPhases_wired (strongDragVoltages_wired hw)
  generalize strongDrag (bootFoc m fg) ⟨bootTmr.of m, bootTmr.of m⟩ = dragged at hd ⊢
  rw [angleInitZero_rewire hai hd]
  rfl

/-! ## Result -/

/-- **Symmetry.**  With the readings and the commands of the two motors exchanged, each motor
does what the other would have done, on its own wiring. -/
theorem run_mirror (strtof : List UInt8 → ℚ) (b : BootInputs) (evs : List Event) (m : Motor) :
    (run (step strtof) (boot b.mirror) (evs.map Event.mirror)).view m.other =
      ((run (step strtof) (boot b) evs).view m).mirror m.other := by
  have hboot : (boot b.mirror).view m.other = ((boot b).view m).mirror m.other := by
    rw [view_boot, view_boot]
    exact bootView_mirror (fun k => (b.mirror_firstGet m k).own)
      fun k => (b.mirror_angleInit m k).own
  induction evs using List.reverseRecOn with
  | nil => exact hboot
  | append_singleton evs e ih =>
    rw [List.map_append, run_append, run_append]
    exact step_mirror strtof (run_invariant (step_wired strtof) _ _ (boot_wired b))
      (run_invariant (step_wired strtof) _ _ (boot_wired b.mirror)) ih e

end At32Foc
