import At32Foc.Lib.Run
import At32Foc.Foc
import At32Foc.Usart

/-!
# The system: boot, interrupt handlers and main loop

`main.c` and the handlers of `at32f403a_407_int.c` as one state machine.  `Host` is
what the main loop works on, generic in the number type; `Sys` is the whole state
over the rationals.  After `boot` the system takes `Event`s in any order: an ADC
transfer completes and its handler runs one control step (DMA1 channel 2 carries
ADC1 to motor 1, channel 1 carries ADC3 to motor 2), the speed timer ticks, or the
main loop runs its apply phase or parses a received message.
-/

namespace At32Foc

open ControlLib

/-! ## The main loop -/

structure Host (F : Type) where
  Motor_1 : FOCState F
  Motor_2 : FOCState F
  pidParams1 : PIDParams F
  pidParams2 : PIDParams F

section MainLoop

variable {F : Type} [OfScientific F]

/-- One current block of the apply phase. -/
def applyCurrent (pFOC : FOCState F) (pid : PIDParams F) : FOCState F × PIDParams F :=
  if pid.CurrentSetFlag = 0 then
    let pFOC := setCurrentPIDTar pFOC pid.Id pid.Iq
    let pFOC := setCurrentPIDParams pFOC pid.CurrentKP pid.CurrentKI pid.CurrentKD 6.0
    (pFOC, { pid with CurrentSetFlag := 1 })
  else (pFOC, pid)

/-- One speed block of the apply phase. -/
def applySpeed (pFOC : FOCState F) (pid : PIDParams F) : FOCState F × PIDParams F :=
  if pid.SpeedSetFlag = 0 then
    let pFOC := setSpeedPIDTar pFOC pid.Speed
    let pFOC := setSpeedPIDParams pFOC pid.SpeedKP pid.SpeedKI pid.SpeedKD 40.0
    (pFOC, { pid with SpeedSetFlag := 1 })
  else (pFOC, pid)

def mainApply (h : Host F) : Host F :=
  let (Motor_1, pidParams1) := applyCurrent h.Motor_1 h.pidParams1
  let (Motor_2, pidParams2) := applyCurrent h.Motor_2 h.pidParams2
  let (Motor_1, pidParams1) := applySpeed Motor_1 pidParams1
  let (Motor_2, pidParams2) := applySpeed Motor_2 pidParams2
  ⟨Motor_1, Motor_2, pidParams1, pidParams2⟩

/-- The parameter settings `main` makes for each motor. -/
def bootPID (pFOC : FOCState F) : FOCState F :=
  let pFOC := setCurrentPIDTar pFOC 0.0 0.0
  let pFOC := setCurrentPIDParams pFOC 0.04 0.04 0.0 6.0
  let pFOC := setSpeedPIDTar pFOC 0.0
  setSpeedPIDParams pFOC 0.3 0.01 0.0 40.0

omit [OfScientific F] in
/-- The parse phase, on the text in the receive buffer. -/
def mainParse (strtof : List UInt8 → F) (msg : List UInt8) (h : Host F) : Host F :=
  let (pidParams1, pidParams2) := parseAndSetPid strtof msg h.pidParams1 h.pidParams2
  { h with pidParams1 := pidParams1, pidParams2 := pidParams2 }

end MainLoop

/-! ## The whole state -/

structure Sys extends Host ℚ where
  hw : Inputs
  SVpwm_1 : SVpwmState
  SVpwm_2 : SVpwmState
  M1_LPF : LPFCurrent
  M2_LPF : LPFCurrent
  M1_LPF_Speed : LPFSpeed
  M2_LPF_Speed : LPFSpeed
  tmr : Timers
  /-- The tick counter and the LED of `TMR5_GLOBAL_IRQHandler`. -/
  t : ℤ
  LED0 : Bool

def dma1Channel1IRQHandler (s : Sys) : Sys :=
  let d := focContorl s.hw ⟨s.Motor_2, s.SVpwm_2, s.M2_LPF, s.tmr⟩
  { s with Motor_2 := d.pFOC, SVpwm_2 := d.PSVpwm, M2_LPF := d.LPF_M, tmr := d.tmr }

def dma1Channel2IRQHandler (s : Sys) : Sys :=
  let d := focContorl s.hw ⟨s.Motor_1, s.SVpwm_1, s.M1_LPF, s.tmr⟩
  { s with Motor_1 := d.pFOC, SVpwm_1 := d.PSVpwm, M1_LPF := d.LPF_M, tmr := d.tmr }

def tmr5GlobalIRQHandler (s : Sys) : Sys :=
  let t := s.t + 1
  let (t, LED0) := if t = 100 then (0, !s.LED0) else (t, s.LED0)
  let (Motor_1, M1_LPF_Speed) := calculateSpeed s.Motor_1 0.001 s.M1_LPF_Speed
  let (Motor_2, M2_LPF_Speed) := calculateSpeed s.Motor_2 0.001 s.M2_LPF_Speed
  let Motor_1 := speedPIControl Motor_1
  let Motor_2 := speedPIControl Motor_2
  { s with Motor_1 := Motor_1, Motor_2 := Motor_2, M1_LPF_Speed := M1_LPF_Speed,
           M2_LPF_Speed := M2_LPF_Speed, t := t, LED0 := LED0 }

/-! ## Boot -/

/-- What the peripherals show to the calibrations of the boot sequence, one value per
reading. -/
structure BootInputs where
  firstGet1 : ℕ → Inputs
  firstGet2 : ℕ → Inputs
  angleInit1 : ℕ → Inputs
  angleInit2 : ℕ → Inputs

/-- Peripherals that show the same throughout the boot sequence. -/
def BootInputs.const (hw : Inputs) : BootInputs :=
  ⟨fun _ => hw, fun _ => hw, fun _ => hw, fun _ => hw⟩

/-- A filter before its initializer has run. -/
def lpfZero : LPFFilter := ⟨0, 0⟩

/-- `main` up to its loop. -/
def boot (b : BootInputs) : Sys :=
  let tmr : Timers := ⟨tmrInit, tmrInit⟩
  let tmr := m1AdcTigger ALL_Duty tmr
  let tmr := m2AdcTigger ALL_Duty tmr
  let M1 := firstGet b.firstGet1 Motor_1
  let M2 := firstGet b.firstGet2 Motor_2
  let M1_LPF := lpfInit ⟨lpfZero, lpfZero⟩
  let M2_LPF := lpfInit ⟨lpfZero, lpfZero⟩
  let M1_LPF_Speed := lpfSpeedInit ⟨lpfZero⟩
  let M2_LPF_Speed := lpfSpeedInit ⟨lpfZero⟩
  let M1 := bootPID M1
  let M2 := bootPID M2
  let (M1, tmr) := angleInit b.angleInit1 M1 tmr
  let (M2, tmr) := angleInit b.angleInit2 M2 tmr
  { Motor_1 := M1, Motor_2 := M2, pidParams1 := pidParamsInit, pidParams2 := pidParamsInit,
    hw := b.angleInit2 11, SVpwm_1 := svpwmInit, SVpwm_2 := svpwmInit,
    M1_LPF := M1_LPF, M2_LPF := M2_LPF, M1_LPF_Speed := M1_LPF_Speed,
    M2_LPF_Speed := M2_LPF_Speed, tmr := tmr, t := 0, LED0 := false }

/-! ## Events -/

inductive Event where
  /-- ADC1 data and the angle of encoder 1, then `DMA1_Channel2_IRQHandler`. -/
  | adc1 (ad : ADBuffer) (angle : ℚ)
  /-- ADC3 data and the angle of encoder 2, then `DMA1_Channel1_IRQHandler`. -/
  | adc3 (ad : ADBuffer) (angle : ℚ)
  | tmr5
  | apply
  | parse (msg : List UInt8)

def step (strtof : List UInt8 → ℚ) (s : Sys) : Event → Sys
  | .adc1 ad angle =>
    dma1Channel2IRQHandler { s with hw := { s.hw with Motor1ADValue := ad, mt6701_1 := angle } }
  | .adc3 ad angle =>
    dma1Channel1IRQHandler { s with hw := { s.hw with Motor2ADValue := ad, mt6701_2 := angle } }
  | .tmr5 => tmr5GlobalIRQHandler s
  | .apply => { s with toHost := mainApply s.toHost }
  | .parse msg => { s with toHost := mainParse strtof msg s.toHost }

/-! ## One motor's part of the state -/

/-- Everything that belongs to one motor: its structures and its PWM timer. -/
structure MotorView where
  foc : FOCState ℚ
  sv : SVpwmState
  lpf : LPFCurrent
  lpfSpeed : LPFSpeed
  params : PIDParams ℚ
  tmr : TmrType
  deriving DecidableEq

def Sys.view (m : Motor) (s : Sys) : MotorView :=
  match m with
  | .M1 => ⟨s.Motor_1, s.SVpwm_1, s.M1_LPF, s.M1_LPF_Speed, s.pidParams1, s.tmr.TMR4⟩
  | .M2 => ⟨s.Motor_2, s.SVpwm_2, s.M2_LPF, s.M2_LPF_Speed, s.pidParams2, s.tmr.TMR2⟩

end At32Foc
