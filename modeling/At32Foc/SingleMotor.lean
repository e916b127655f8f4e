import At32Foc.Main

/-!
# Each motor runs alone

The two motors share the timer tick and the main loop, but none of the structures
these work on.  `motorStep m` is a machine for one motor: its own structures and PWM timer
(`MotorView`) and the events that concern it (`MotorEvent`).  The whole system,
seen through one motor, is that machine:

    Wired s → (run (step strtof) s evs).view m =
      run (motorStep strtof m) (s.view m) (evs.filterMap (Event.forMotor m))      (run_view)

so a fact about every run of `motorStep` is a fact about every run of the system.
-/

namespace At32Foc

open ControlLib

/-! ## The machine of one motor -/

def Motor.flag : Motor → UInt8
  | .M1 => 1
  | .M2 => 2

def Motor.setPWM : Motor → SetPWMPtr
  | .M1 => .setpwm1Channel
  | .M2 => .setpwm2Channel

/-- The PWM timer of a motor. -/
def Timers.of (m : Motor) (tmr : Timers) : TmrType :=
  match m with
  | .M1 => tmr.TMR4
  | .M2 => tmr.TMR2

inductive MotorEvent where
  | control (ad : ADBuffer) (angle : ℚ)
  | tick
  | apply
  | parse (msg : List UInt8)
  deriving DecidableEq

/-- Peripherals that show the same to both motors. -/
def Inputs.both (ad : ADBuffer) (angle : ℚ) : Inputs := ⟨ad, ad, angle, angle⟩

def Inputs.ad (m : Motor) (hw : Inputs) : ADBuffer :=
  match m with
  | .M1 => hw.Motor1ADValue
  | .M2 => hw.Motor2ADValue

def Inputs.angle (m : Motor) (hw : Inputs) : ℚ :=
  match m with
  | .M1 => hw.mt6701_1
  | .M2 => hw.mt6701_2

/-- The half of the peripherals that belongs to a motor. -/
def Inputs.own (m : Motor) (hw : Inputs) : Inputs := .both (hw.ad m) (hw.angle m)

@[simp] theorem Inputs.ad_both (m : Motor) (ad : ADBuffer) (angle : ℚ) :
    (Inputs.both ad angle).ad m = ad := by
  cases m <;> rfl

@[simp] theorem Inputs.angle_both (m : Motor) (ad : ADBuffer) (angle : ℚ) :
    (Inputs.both ad angle).angle m = angle := by
  cases m <;> rfl

@[simp] theorem Inputs.ad_own (m : Motor) (hw : Inputs) : (hw.own m).ad m = hw.ad m :=
  ad_both m _ _

@[simp] theorem Inputs.angle_own (m : Motor) (hw : Inputs) : (hw.own m).angle m = hw.angle m :=
  angle_both m _ _

namespace MotorView

def control (m : Motor) (ad : ADBuffer) (angle : ℚ) (v : MotorView) : MotorView :=
  let d := focContorl (.both ad angle) ⟨v.foc, v.sv, v.lpf, ⟨v.tmr, v.tmr⟩⟩
  { v with foc := d.pFOC, sv := d.PSVpwm, lpf := d.LPF_M, tmr := d.tmr.of m }

def tick (v : MotorView) : MotorView :=
  let (foc, lpfSpeed) := calculateSpeed v.foc 0.001 v.lpfSpeed
  { v with foc := speedPIControl foc, lpfSpeed := lpfSpeed }

def apply (v : MotorView) : MotorView :=
  let (foc, params) := applyCurrent v.foc v.params
  let (foc, params) := applySpeed foc params
  { v with foc := foc, params := params }

/-- The effect of a message addressed to this motor. -/
def parse (strtof : List UInt8 → ℚ) (msg : List UInt8) (v : MotorView) : MotorView :=
  match parseName msg with
  | none => v
  | some (_, name, text) => { v with params := setParam strtof name text v.params }

end MotorView

def motorStep (strtof : List UInt8 → ℚ) (m : Motor) (v : MotorView) : MotorEvent → MotorView
  | .control ad angle => v.control m ad angle
  | .tick => v.tick
  | .apply => v.apply
  | .parse msg => v.parse strtof msg

/-- What an event of the system is to one motor. -/
def Event.forMotor (m : Motor) : Event → Option MotorEvent
  | .adc1 ad angle => if m = .M1 then some (.control ad angle) else none
  | .adc3 ad angle => if m = .M2 then some (.control ad angle) else none
  | .tmr5 => some .tick
  | .apply => some .apply
  | .parse msg => if commandGroup msg = some m then some (.parse msg) else none

/-! ## Wiring -/

/-- What boot fixes in a motor's record: its flag, its PWM function and its offsets. -/
structure Wiring where
  Mflag : UInt8
  SetPWM : SetPWMPtr
  voltageAOffset : UInt16
  voltageBOffset : UInt16

def FOCState.wiring (pFOC : FOCState ℚ) : Wiring :=
  ⟨pFOC.current.Mflag, pFOC.SetPWM, pFOC.current.voltageAOffset, pFOC.current.voltageBOffset⟩

/-- The flag and the PWM function are those of the motor. -/
def WiredFor (m : Motor) (pFOC : FOCState ℚ) : Prop :=
  pFOC.current.Mflag = m.flag ∧ pFOC.SetPWM = m.setPWM

def Wired (s : Sys) : Prop := WiredFor .M1 s.Motor_1 ∧ WiredFor .M2 s.Motor_2

theorem WiredFor.of_wiring {m : Motor} {p q : FOCState ℚ} (h : q.wiring = p.wiring)
    (hp : WiredFor m p) : WiredFor m q :=
  ⟨(congrArg Wiring.Mflag h).trans hp.1, (congrArg Wiring.SetPWM h).trans hp.2⟩

theorem SameButAngles.wiring {p q : FOCState ℚ} (h : SameButAngles p q) : q.wiring = p.wiring := by
  obtain ⟨a, e, c, z, rfl⟩ := h
  rfl

theorem SameButAngles.wired {p q : FOCState ℚ} (h : SameButAngles p q) {m : Motor}
    (hp : WiredFor m p) : WiredFor m q := hp.of_wiring h.wiring

theorem sampleAD_wiring (hw : Inputs) (pFOC : FOCState ℚ) :
    (sampleAD hw pFOC).wiring = pFOC.wiring := by
  unfold sampleAD
  split_ifs <;> rfl

/-- Nothing in a control step rewires the motor. -/
theorem focMeasure_wiring (hw : Inputs) (pFOC : FOCState ℚ) (lpf : LPFCurrent) :
    (focMeasure hw pFOC lpf).1.wiring = pFOC.wiring :=
  focMeasure_keeps FOCState.wiring SameButAngles.wiring sampleAD_wiring (fun _ _ => rfl) hw pFOC lpf

theorem focContorl_wiring (hw : Inputs) (d : Drive) :
    (focContorl hw d).pFOC.wiring = d.pFOC.wiring :=
  focContorl_keeps FOCState.wiring SameButAngles.wiring sampleAD_wiring (fun _ _ => rfl)
    (fun _ => rfl) hw d

theorem applyCurrent_wiring (pFOC : FOCState ℚ) (pid : PIDParams ℚ) :
    (applyCurrent pFOC pid).1.wiring = pFOC.wiring := by
  unfold applyCurrent
  split_ifs <;> rfl

theorem applySpeed_wiring (pFOC : FOCState ℚ) (pid : PIDParams ℚ) :
    (applySpeed pFOC pid).1.wiring = pFOC.wiring := by
  unfold applySpeed
  split_ifs <;> rfl

/-- Nothing the machine does rewires the motor. -/
theorem motorStep_wiring (strtof : List UInt8 → ℚ) (m : Motor) (v : MotorView) (e : MotorEvent) :
    (motorStep strtof m v e).foc.wiring = v.foc.wiring := by
  cases e with
  | control ad angle => exact focContorl_wiring _ _
  | tick => rfl
  | apply => exact (applySpeed_wiring _ _).trans (applyCurrent_wiring v.foc v.params)
  | parse msg =>
    rw [motorStep, MotorView.parse]
    split <;> rfl

theorem motorStep_wired (strtof : List UInt8 → ℚ) (m m' : Motor) (v : MotorView) (e : MotorEvent)
    (h : WiredFor m' v.foc) : WiredFor m' (motorStep strtof m v e).foc :=
  h.of_wiring (motorStep_wiring strtof m v e)

/-! ## The system, seen through one motor -/

/-- A wired motor reads its own encoder. -/
theorem electricalAngle_eq {m : Motor} (hw : Inputs) {pFOC : FOCState ℚ}
    (h : pFOC.current.Mflag = m.flag) :
    electricalAngle hw pFOC = { pFOC with
      mechanicalAngle := hw.angle m, elecAngle := angleLimit (hw.angle m * POLE_PAIRS) } := by
  cases m <;> simp [electricalAngle, h, Motor.flag, Inputs.angle]

/-- It samples its own ADC buffer. -/
theorem sampleAD_eq {m : Motor} (hw : Inputs) {pFOC : FOCState ℚ}
    (h : pFOC.current.Mflag = m.flag) :
    sampleAD hw pFOC = { pFOC with
      current := { pFOC.current with adA := (hw.ad m).ad1, adB := (hw.ad m).ad0 } } := by
  cases m <;> simp [sampleAD, h, Motor.flag, Inputs.ad]

theorem electricalAngle_own (m : Motor) (hw : Inputs) (pFOC : FOCState ℚ)
    (h : pFOC.current.Mflag = m.flag) :
    electricalAngle hw pFOC = electricalAngle (hw.own m) pFOC := by
  rw [electricalAngle_eq hw h, electricalAngle_eq (hw.own m) h, Inputs.angle_own]

theorem getCorrectedElectricalAngle_own (m : Motor) (hw : Inputs) (pFOC : FOCState ℚ)
    (h : pFOC.current.Mflag = m.flag) :
    getCorrectedElectricalAngle hw pFOC = getCorrectedElectricalAngle (hw.own m) pFOC := by
  rw [getCorrectedElectricalAngle, getCorrectedElectricalAngle, electricalAngle_own m hw pFOC h]

theorem sampleAD_own (m : Motor) (hw : Inputs) (pFOC : FOCState ℚ)
    (h : pFOC.current.Mflag = m.flag) : sampleAD hw pFOC = sampleAD (hw.own m) pFOC := by
  rw [sampleAD_eq hw h, sampleAD_eq (hw.own m) h, Inputs.ad_own]

theorem focMeasure_own {m : Motor} (hw : Inputs) {pFOC : FOCState ℚ} (lpf : LPFCurrent)
    (h : WiredFor m pFOC) : focMeasure hw pFOC lpf = focMeasure (hw.own m) pFOC lpf := by
  have hc := (getCorrectedElectricalAngle_same (hw.own m) pFOC).wired h
  rw [focMeasure, focMeasure, getCorrectedElectricalAngle_own m hw pFOC h.1,
    sampleAD_own m hw _ hc.1]

/-- A PWM function writes its own timer, and only that one. -/
theorem callSetPWM_own (m : Motor) (a b c : ℚ) (tmr : Timers) :
    (callSetPWM m.setPWM a b c tmr).of m =
      (callSetPWM m.setPWM a b c ⟨tmr.of m, tmr.of m⟩).of m := by
  cases m <;> rfl

theorem callSetPWM_other {m m' : Motor} (hm : m' ≠ m) (a b c : ℚ) (tmr : Timers) :
    (callSetPWM m.setPWM a b c tmr).of m' = tmr.of m' := by
  cases m <;> cases m' <;> first | rfl | exact absurd rfl hm

/-- The control step of a wired motor, in the terms of its own machine. -/
theorem focContorl_own {m : Motor} (hw : Inputs) (d : Drive) (h : WiredFor m d.pFOC) :
    let d' := focContorl (hw.own m) { d with tmr := ⟨d.tmr.of m, d.tmr.of m⟩ }
    (focContorl hw d).pFOC = d'.pFOC ∧ (focContorl hw d).PSVpwm = d'.PSVpwm ∧
      (focContorl hw d).LPF_M = d'.LPF_M ∧ (focContorl hw d).tmr.of m = d'.tmr.of m := by
  have hset := (h.of_wiring (focMeasure_wiring (hw.own m) d.pFOC d.LPF_M)).2
  unfold focContorl
  rw [focMeasure_own hw d.LPF_M h]
  generalize focMeasure (hw.own m) d.pFOC d.LPF_M = measured at hset
  refine ⟨rfl, rfl, rfl, ?_⟩
  simp only [setSVpwm, focControl_SetPWM, hset]
  exact callSetPWM_own m _ _ _ d.tmr

/-- It leaves the timer of the other motor alone. -/
theorem focContorl_other {m m' : Motor} (hm : m' ≠ m) (hw : Inputs) (d : Drive)
    (h : WiredFor m d.pFOC) : (focContorl hw d).tmr.of m' = d.tmr.of m' := by
  have hset := (h.of_wiring (focMeasure_wiring hw d.pFOC d.LPF_M)).2
  simp only [focContorl, setSVpwm, focControl_SetPWM, hset]
  exact callSetPWM_other hm _ _ _ _

/-- The handlers of the ADC transfers, seen through their motor and through the other. -/
theorem view_dma1Channel2 (s : Sys) (h : WiredFor .M1 s.Motor_1) :
    (dma1Channel2IRQHandler s).view .M1 =
        (s.view .M1).control .M1 s.hw.Motor1ADValue s.hw.mt6701_1 ∧
      (dma1Channel2IRQHandler s).view .M2 = s.view .M2 := by
  obtain ⟨h1, h2, h3, h4⟩ := focContorl_own s.hw ⟨s.Motor_1, s.SVpwm_1, s.M1_LPF, s.tmr⟩ h
  have h5 := focContorl_other (nofun : Motor.M2 ≠ .M1) s.hw
    ⟨s.Motor_1, s.SVpwm_1, s.M1_LPF, s.tmr⟩ h
  simp only [dma1Channel2IRQHandler, Sys.view, MotorView.control, MotorView.mk.injEq]
  exact ⟨⟨h1, h2, h3, trivial, trivial, h4⟩, trivial, trivial, trivial, trivial, trivial, h5⟩

theorem view_dma1Channel1 (s : Sys) (h : WiredFor .M2 s.Motor_2) :
    (dma1Channel1IRQHandler s).view .M2 =
        (s.view .M2).control .M2 s.hw.Motor2ADValue s.hw.mt6701_2 ∧
      (dma1Channel1IRQHandler s).view .M1 = s.view .M1 := by
  obtain ⟨h1, h2, h3, h4⟩ := focContorl_own s.hw ⟨s.Motor_2, s.SVpwm_2, s.M2_LPF, s.tmr⟩ h
  have h5 := focContorl_other (nofun : Motor.M1 ≠ .M2) s.hw
    ⟨s.Motor_2, s.SVpwm_2, s.M2_LPF, s.tmr⟩ h
  simp only [dma1Channel1IRQHandler, Sys.view, MotorView.control, MotorView.mk.injEq]
  exact ⟨⟨h1, h2, h3, trivial, trivial, h4⟩, trivial, trivial, trivial, trivial, trivial, h5⟩

theorem view_tmr5 (m : Motor) (s : Sys) : (tmr5GlobalIRQHandler s).view m = (s.view m).tick := by
  cases m <;> rfl

theorem view_mainApply (m : Motor) (s : Sys) :
    Sys.view m { s with toHost := mainApply s.toHost } = (s.view m).apply := by
  cases m <;> rfl

/-- The parse phase, seen through the motor the message addresses and through any other. -/
theorem view_mainParse (strtof : List UInt8 → ℚ) (m : Motor) (s : Sys) (msg : List UInt8) :
    Sys.view m { s with toHost := mainParse strtof msg s.toHost } =
      if commandGroup msg = some m then (s.view m).parse strtof msg else s.view m := by
  unfold commandGroup mainParse parseAndSetPid MotorView.parse
  rcases parseName msg with _ | ⟨_ | _, name, text⟩ <;> cases m <;> rfl

/-! ## One step, every run -/

theorem wired_of_view {s s' : Sys} (h : ∀ m, WiredFor m (s.view m).foc → WiredFor m (s'.view m).foc)
    (hs : Wired s) : Wired s' := ⟨h .M1 hs.1, h .M2 hs.2⟩

section Step

variable (strtof : List UInt8 → ℚ)

/-- An event that does not concern a motor leaves its part of the state alone. -/
theorem view_step_none {m : Motor} {s : Sys} {e : Event} (hs : Wired s) (he : e.forMotor m = none) :
    (step strtof s e).view m = s.view m := by
  cases e with
  | adc1 ad angle =>
    have h := view_dma1Channel2
      { s with hw := { s.hw with Motor1ADValue := ad, mt6701_1 := angle } } hs.1
    cases m with
    | M1 => simp [Event.forMotor] at he
    | M2 => exact h.2
  | adc3 ad angle =>
    have h := view_dma1Channel1
      { s with hw := { s.hw with Motor2ADValue := ad, mt6701_2 := angle } } hs.2
    cases m with
    | M1 => exact h.2
    | M2 => simp [Event.forMotor] at he
  | tmr5 => cases he
  | apply => cases he
  | parse msg =>
    simp only [Event.forMotor, ite_eq_right_iff, reduceCtorEq, imp_false] at he
    exact (view_mainParse strtof m s msg).trans (if_neg he)

/-- An event that concerns a motor is a step of its machine. -/
theorem view_step_some {m : Motor} {s : Sys} {e : Event} {o : MotorEvent} (hs : Wired s)
    (he : e.forMotor m = some o) : (step strtof s e).view m = motorStep strtof m (s.view m) o := by
  cases e with
  | adc1 ad angle =>
    have h := view_dma1Channel2
      { s with hw := { s.hw with Motor1ADValue := ad, mt6701_1 := angle } } hs.1
    cases m with
    | M1 => cases he; exact h.1
    | M2 => simp [Event.forMotor] at he
  | adc3 ad angle =>
    have h := view_dma1Channel1
      { s with hw := { s.hw with Motor2ADValue := ad, mt6701_2 := angle } } hs.2
    cases m with
    | M1 => simp [Event.forMotor] at he
    | M2 => cases he; exact h.1
  | tmr5 => cases he; exact view_tmr5 m s
  | apply => cases he; exact view_mainApply m s
  | parse msg =>
    simp only [Event.forMotor, Option.ite_none_right_eq_some, Option.some.injEq] at he
    obtain ⟨hg, rfl⟩ := he
    exact (view_mainParse strtof m s msg).trans (if_pos hg)

theorem step_wired (s : Sys) (e : Event) (hs : Wired s) : Wired (step strtof s e) := by
  refine wired_of_view (fun m h => ?_) hs
  cases he : e.forMotor m with
  | none => rwa [view_step_none strtof hs he]
  | some e' =>
    rw [view_step_some strtof hs he]
    exact motorStep_wired strtof m m _ e' h

/-- **Projection.**  Seen through one motor, a run of the system is a run of that motor's
machine. -/
theorem run_view (m : Motor) (evs : List Event) (s : Sys) (hs : Wired s) :
    (run (step strtof) s evs).view m =
      run (motorStep strtof m) (s.view m) (evs.filterMap (Event.forMotor m)) :=
  run_simulation (step_wired strtof) (fun _ _ hs he => view_step_none strtof hs he)
    (fun _ _ _ hs he => view_step_some strtof hs he) evs s hs

end Step

/-! ## Boot -/

def BootInputs.firstGet (m : Motor) (b : BootInputs) : ℕ → Inputs :=
  match m with
  | .M1 => b.firstGet1
  | .M2 => b.firstGet2

def BootInputs.angleInit (m : Motor) (b : BootInputs) : ℕ → Inputs :=
  match m with
  | .M1 => b.angleInit1
  | .M2 => b.angleInit2

/-- The timers once both ADC triggers are programmed. -/
def bootTmr : Timers := m2AdcTigger ALL_Duty (m1AdcTigger ALL_Duty ⟨tmrInit, tmrInit⟩)

/-- The record of a motor when `angle_init` is called. -/
def bootFoc (m : Motor) (fg : ℕ → Inputs) : FOCState ℚ :=
  bootPID (firstGet fg (motorInit m.flag m.setPWM))

/-- The boot sequence of one motor: `fg` is what `first_get` reads, `ai` what `angle_init`
reads. -/
def bootView (m : Motor) (fg ai : ℕ → Inputs) : MotorView :=
  let r := angleInit ai (bootFoc m fg) ⟨bootTmr.of m, bootTmr.of m⟩
  ⟨r.1, svpwmInit, lpfInit ⟨lpfZero, lpfZero⟩, lpfSpeedInit ⟨lpfZero⟩, pidParamsInit, r.2.of m⟩

theorem firstGetStep_Mflag (hw : Inputs) (c : CurrentState) :
    (firstGetStep hw c).Mflag = c.Mflag := by
  unfold firstGetStep
  split_ifs <;> rfl

theorem firstGetStep_eq {m : Motor} (hw : Inputs) {c : CurrentState} (h : c.Mflag = m.flag) :
    firstGetStep hw c =
      { c with adB := c.adB + (hw.ad m).ad0, adA := c.adA + (hw.ad m).ad1 } := by
  cases m <;> simp [firstGetStep, h, Motor.flag, Inputs.ad]

theorem firstGetStep_own {m : Motor} (hw : Inputs) {c : CurrentState} (h : c.Mflag = m.flag) :
    firstGetStep hw c = firstGetStep (hw.own m) c := by
  rw [firstGetStep_eq hw h, firstGetStep_eq (hw.own m) h, Inputs.ad_own]

theorem firstGetLoop_Mflag (hw : ℕ → Inputs) (n : ℕ) (c : CurrentState) :
    (firstGetLoop hw n c).Mflag = c.Mflag := by
  induction n with
  | zero => rfl
  | succ n ih => rw [firstGetLoop_succ, firstGetStep_Mflag, ih]

theorem firstGetLoop_own {m : Motor} (hw : ℕ → Inputs) (n : ℕ) {c : CurrentState}
    (h : c.Mflag = m.flag) : firstGetLoop hw n c = firstGetLoop (fun k => (hw k).own m) n c := by
  induction n with
  | zero => rfl
  | succ n ih =>
    rw [firstGetLoop_succ, firstGetLoop_succ, ← ih]
    exact firstGetStep_own (hw n) ((firstGetLoop_Mflag hw n c).trans h)

/-- `first_get` reads the motor's own ADC buffer. -/
theorem firstGetCurrent_own {m : Motor} (hw : ℕ → Inputs) {c : CurrentState}
    (h : c.Mflag = m.flag) :
    firstGetCurrent hw c = firstGetCurrent (fun k => (hw k).own m) c := by
  have hl := firstGetLoop_own hw 16 (c := { c with adB := 0, adA := 0 }) h
  rw [firstGetCurrent, firstGetCurrent]
  simp only [hl]

theorem firstGetCurrent_Mflag (hw : ℕ → Inputs) (c : CurrentState) :
    (firstGetCurrent hw c).Mflag = c.Mflag := by
  simp only [firstGetCurrent, firstGetLoop_Mflag]

theorem angleInitLoop_own {m : Motor} (hw : ℕ → Inputs) (n : ℕ) {pFOC : FOCState ℚ}
    (h : WiredFor m pFOC) :
    angleInitLoop hw n pFOC = angleInitLoop (fun k => (hw k).own m) n pFOC := by
  induction n with
  | zero => rfl
  | succ n ih =>
    have hn := electricalAngle_own m (hw n) _ ((angleInitLoop_same hw n pFOC).wired h).1
    rw [angleInitLoop_succ, angleInitLoop_succ, ← ih, angleInitStep, angleInitStep, hn]

/-- `angle_init` reads the motor's own encoder. -/
theorem angleInitZero_own {m : Motor} (hw : ℕ → Inputs) {pFOC : FOCState ℚ}
    (h : WiredFor m pFOC) :
    angleInitZero hw pFOC = angleInitZero (fun k => (hw k).own m) pFOC := by
  have h0 := (electricalAngle_same (hw 0) pFOC).wired h
  have hl := (angleInitLoop_same (fun i => hw (i + 1)) 10 (electricalAngle (hw 0) pFOC)).wired h0
  have hm := (angleInitMean_same 10 _).wired hl
  rw [angleInitZero, angleInitZero, getCorrectedElectricalAngle_own m (hw 11) _ hm.1,
    angleInitLoop_own (fun i => hw (i + 1)) 10 h0, electricalAngle_own m (hw 0) pFOC h.1]

theorem limitPhases_wired {m : Motor} {pFOC : FOCState ℚ} (h : WiredFor m pFOC) :
    WiredFor m (limitPhases pFOC) := ⟨h.1, h.2⟩

theorem strongDragVoltages_wired {m : Motor} {pFOC : FOCState ℚ} (h : WiredFor m pFOC) :
    WiredFor m (strongDragVoltages pFOC) := ⟨h.1, h.2⟩

/-- The calibration of a wired motor, in the terms of its own machine. -/
theorem angleInit_own {m : Motor} (hw : ℕ → Inputs) {pFOC : FOCState ℚ} (tmr : Timers)
    (h : WiredFor m pFOC) :
    (angleInit hw pFOC tmr).1 =
        (angleInit (fun k => (hw k).own m) pFOC ⟨tmr.of m, tmr.of m⟩).1 ∧
      (angleInit hw pFOC tmr).2.of m =
        (angleInit (fun k => (hw k).own m) pFOC ⟨tmr.of m, tmr.of m⟩).2.of m := by
  have hv := strongDragVoltages_wired h
  constructor
  · exact angleInitZero_own hw (limitPhases_wired hv)
  · simp only [angleInit, strongDrag, setpwm, (limitPhases_wired hv).2]
    exact callSetPWM_own m _ _ _ tmr

theorem angleInit_other {m m' : Motor} (hm : m' ≠ m) (hw : ℕ → Inputs) {pFOC : FOCState ℚ}
    (tmr : Timers) (h : WiredFor m pFOC) : (angleInit hw pFOC tmr).2.of m' = tmr.of m' := by
  simp only [angleInit, strongDrag, setpwm, (limitPhases_wired (strongDragVoltages_wired h)).2]
  exact callSetPWM_other hm _ _ _ _

theorem bootFoc_wired (m : Motor) (fg : ℕ → Inputs) : WiredFor m (bootFoc m fg) :=
  ⟨firstGetCurrent_Mflag fg _, rfl⟩

theorem bootFoc_own (m : Motor) (fg : ℕ → Inputs) :
    bootFoc m fg = bootFoc m (fun k => (fg k).own m) := by
  unfold bootFoc firstGet
  rw [firstGetCurrent_own (m := m) fg rfl]

theorem boot_Motor_1 (b : BootInputs) :
    (boot b).Motor_1 = (angleInit b.angleInit1 (bootFoc .M1 b.firstGet1) bootTmr).1 := rfl

theorem boot_Motor_2 (b : BootInputs) :
    (boot b).Motor_2 = (angleInit b.angleInit2 (bootFoc .M2 b.firstGet2)
      (angleInit b.angleInit1 (bootFoc .M1 b.firstGet1) bootTmr).2).1 := rfl

/-- The timers after both calibrations. -/
theorem boot_tmr (b : BootInputs) :
    (boot b).tmr = (angleInit b.angleInit2 (bootFoc .M2 b.firstGet2)
      (angleInit b.angleInit1 (bootFoc .M1 b.firstGet1) bootTmr).2).2 := rfl

/-- **Boot.**  Seen through one motor, the boot sequence depends on that motor's readings
alone. -/
theorem view_boot (m : Motor) (b : BootInputs) :
    (boot b).view m =
      bootView m (fun k => (b.firstGet m k).own m) (fun k => (b.angleInit m k).own m) := by
  have w1 := bootFoc_wired .M1 b.firstGet1
  have w2 := bootFoc_wired .M2 b.firstGet2
  have o1 := angleInit_other (nofun : Motor.M2 ≠ .M1) b.angleInit1 bootTmr w1
  have o2 := angleInit_other (nofun : Motor.M1 ≠ .M2) b.angleInit2
    (angleInit b.angleInit1 (bootFoc .M1 b.firstGet1) bootTmr).2 w2
  cases m with
  | M1 =>
    obtain ⟨h1, h2⟩ := angleInit_own b.angleInit1 bootTmr w1
    have e : (boot b).view .M1 = ⟨(boot b).Motor_1, svpwmInit, lpfInit ⟨lpfZero, lpfZero⟩,
        lpfSpeedInit ⟨lpfZero⟩, pidParamsInit, (boot b).tmr.of .M1⟩ := rfl
    rw [e, boot_Motor_1, boot_tmr, o2, h1, h2, bootFoc_own .M1 b.firstGet1]
    rfl
  | M2 =>
    obtain ⟨h1, h2⟩ := angleInit_own b.angleInit2
      (angleInit b.angleInit1 (bootFoc .M1 b.firstGet1) bootTmr).2 w2
    have e : (boot b).view .M2 = ⟨(boot b).Motor_2, svpwmInit, lpfInit ⟨lpfZero, lpfZero⟩,
        lpfSpeedInit ⟨lpfZero⟩, pidParamsInit, (boot b).tmr.of .M2⟩ := rfl
    rw [e, boot_Motor_2, boot_tmr, h1, h2, o1, bootFoc_own .M2 b.firstGet2]
    rfl

theorem boot_wired (b : BootInputs) : Wired (boot b) := by
  have w (m : Motor) (hw fg : ℕ → Inputs) (tmr : Timers) :
      WiredFor m (angleInit hw (bootFoc m fg) tmr).1 :=
    (angleInitZero_same hw _).wired
      (limitPhases_wired (strongDragVoltages_wired (bootFoc_wired m fg)))
  exact ⟨w .M1 b.angleInit1 b.firstGet1 bootTmr, w .M2 b.angleInit2 b.firstGet2 _⟩

end At32Foc
