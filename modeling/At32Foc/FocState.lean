import At32Foc.Lib.Trunc
import At32Foc.Lib.XFloat

/-!
# Data of the two-motor FOC driver

The constants of `foc_config.h` and `filter.h` as exact decimals, and the
structures of `FOC.h`, `SVPWM.h`, `filter.h` and `usart_1.h`.  A `float` is an
exact rational; the structures the host can reach (`PIStruct`, `FOCState`,
`PIDParams`) are generic in the number type, so that the controllers can also be
read over floats with special values.  Hardware the code writes (timer compare
registers) or reads (ADC buffers, encoder angles) is plain data.
-/

namespace At32Foc

open ControlLib

/-! ## Constants -/

def VOLTAGE_HIGH : ℚ := 12.0
def UDC : ℚ := 12.0
def SQRT3 : ℚ := 1.732
def POLE_PAIRS : ℚ := 11
def _2PI : ℚ := 6.28318
def _PI : ℚ := 3.14159
def _1_2 : ℚ := 0.5
def SQRT3_2 : ℚ := 0.866
def EPSILON : ℚ := 1e-6
def ALL_Duty : ℤ := 5000
def ADC_REF_VOLTAGE : ℚ := 3.3
def GAIN : ℚ := 50.0
/-- `M_PI` of `fast_sin.h`. -/
def M_PI : ℚ := 3.1415926
def SAMPLE_FREQ : ℚ := 24000.0
def CUTOFF_FREQ : ℚ := 500.0
/-- `PI` of `filter.h`. -/
def PI : ℚ := 3.1415

theorem _2PI_pos : 0 < _2PI := by norm_num [_2PI]

/-! ## Structures -/

inductive Motor where
  | M1
  | M2
  deriving Repr, DecidableEq

structure CurrentState where
  adA : UInt16
  adB : UInt16
  voltageAOffset : UInt16
  voltageBOffset : UInt16
  Mflag : UInt8
  deriving Repr, DecidableEq

/-- `struct PI_Struct`. -/
structure PIStruct (F : Type) where
  kp : F
  ki : F
  kd : F
  pre : F
  tar : F
  bias : F
  lastBias : F
  out : F
  outMax : F
  deriving Repr, DecidableEq

/-- The functions `SetPWM` may point to. -/
inductive SetPWMPtr where
  | setpwm1Channel
  | setpwm2Channel
  deriving Repr, DecidableEq

structure FOCState (F : Type) where
  current : CurrentState
  Ualpha : F
  Ubeta : F
  Ialpha : F
  Ibeta : F
  Ia : F
  Ib : F
  Ic : F
  Ua : F
  Ub : F
  Uc : F
  Uq : F
  Ud : F
  Iq : F
  Id : F
  mechanicalAngle : F
  elecAngle : F
  corrAngle : F
  zero : F
  idPID : PIStruct F
  iqPID : PIStruct F
  tariq : F
  tarid : F
  speedLastAngle : F
  speed : F
  speedPID : PIStruct F
  tarSpeed : F
  SetPWM : SetPWMPtr
  deriving Repr, DecidableEq

structure SVpwmState where
  Ts : ℚ
  sector : ℕ
  Ta : ℚ
  Tb : ℚ
  Tc : ℚ
  u1 : ℚ
  u2 : ℚ
  u3 : ℚ
  t1 : ℚ
  t2 : ℚ
  t3 : ℚ
  t4 : ℚ
  t5 : ℚ
  t6 : ℚ
  t7 : ℚ
  sum : ℚ
  kSvpwm : ℚ
  K : ℚ
  deriving Repr, DecidableEq

structure LPFFilter where
  alpha : ℚ
  filtered : ℚ
  deriving Repr, DecidableEq

structure LPFCurrent where
  Id : LPFFilter
  Iq : LPFFilter
  deriving Repr, DecidableEq

structure LPFSpeed where
  speed : LPFFilter
  deriving Repr, DecidableEq

structure PIDParams (F : Type) where
  CurrentKP : F
  CurrentKI : F
  CurrentKD : F
  Iq : F
  Id : F
  CurrentSetFlag : UInt8
  SpeedKP : F
  SpeedKI : F
  SpeedKD : F
  Speed : F
  SpeedSetFlag : UInt8
  deriving Repr, DecidableEq

/-! ## Hardware -/

/-- The compare registers of a timer. -/
structure TmrType where
  c1dt : ℤ
  c2dt : ℤ
  c3dt : ℤ
  c4dt : ℤ
  deriving Repr, DecidableEq

structure Timers where
  TMR4 : TmrType
  TMR2 : TmrType
  deriving Repr, DecidableEq

/-- A two-word ADC DMA buffer: word 0 is phase B, word 1 phase A. -/
structure ADBuffer where
  ad0 : UInt16
  ad1 : UInt16
  deriving Repr, DecidableEq

/-- What the peripherals hold when a function reads them: the two ADC buffers, and the
angles the two encoders report (the values `Get_mechanical_angle` returns). -/
structure Inputs where
  Motor1ADValue : ADBuffer
  Motor2ADValue : ADBuffer
  mt6701_1 : ℚ
  mt6701_2 : ℚ
  deriving Repr, DecidableEq

/-! ## Initial values -/

section Init

variable {F : Type} [OfScientific F]

def zeroPID : PIStruct F := ⟨0.0, 0.0, 0.0, 0.0, 0.0, 0.0, 0.0, 0.0, 0.0⟩

/-- The initializer both motors share, up to their flag and PWM function. -/
def motorInit (Mflag : UInt8) (setPWM : SetPWMPtr) : FOCState F where
  current := ⟨0, 0, 0, 0, Mflag⟩
  Ualpha := 0.0
  Ubeta := 0.0
  Ialpha := 0.0
  Ibeta := 0.0
  Ia := 0.0
  Ib := 0.0
  Ic := 0.0
  Ua := 0.0
  Ub := 0.0
  Uc := 0.0
  Uq := 0.0
  Ud := 0.0
  Iq := 0.0
  Id := 0.0
  mechanicalAngle := 0.0
  elecAngle := 0.0
  corrAngle := 0.0
  zero := 0.0
  idPID := zeroPID
  iqPID := zeroPID
  tariq := 0.0
  tarid := 0.0
  speedLastAngle := 0.0
  speed := 0.0
  speedPID := zeroPID
  tarSpeed := 0.0
  SetPWM := setPWM

def Motor_1 : FOCState F := motorInit 1 .setpwm1Channel

def Motor_2 : FOCState F := motorInit 2 .setpwm2Channel

/-- The initializer of `pid_params_1` and `pid_params_2`. -/
def pidParamsInit : PIDParams F where
  CurrentKP := 0.04
  CurrentKI := 0.04
  CurrentKD := 0.0
  Iq := 0.0
  Id := 0.0
  CurrentSetFlag := 1
  SpeedKP := 0.3
  SpeedKI := 0.01
  SpeedKD := 0.0
  Speed := 0.0
  SpeedSetFlag := 1

end Init

/-- The initializer of `SVpwm_1` and `SVpwm_2`; the members it leaves out start at zero. -/
def svpwmInit : SVpwmState := ⟨1.0, 0, 0, 0, 0, 0, 0, 0, 0, 0, 0, 0, 0, 0, 0, 0, 0, 0⟩

/-- The compare registers after `wk_tmr4_init` and `wk_tmr2_init`. -/
def tmrInit : TmrType := ⟨0, 0, 0, 0⟩

/-- `(uint32_t)x`, as `tmr_channel_value_set` receives it: rounded toward zero (C leaves
values outside the range of the type undefined). -/
def toUInt32 (x : ℚ) : ℤ := truncToInt x

end At32Foc
