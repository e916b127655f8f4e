import At32Foc.Lib.IncrementalPI
import At32Foc.FocState
import At32Foc.Filter

/-!
# Current and speed controllers

`current_control.c` and `speed_control.c`.  The three controllers are the same
incremental PI step `piControl` on their own measurement, target and record; over
the rationals they are instances of `piStep` (`piControl_state`).  The q-axis
controller first stores `tariq` as its target and then overwrites it with the
output of the speed loop, so `tariq` never reaches it (`currentPIControlIQ_tariq`).
-/

namespace At32Foc

open ControlLib

/-! ## Controllers -/

section Controllers

variable {F : Type} [Add F] [Sub F] [Mul F] [Neg F] [LT F] [DecidableLT F] [Fabs F]

/-- The clamp that ends every controller. -/
def clampOut (outMax out : F) : F :=
  let out := if out > fabs outMax then fabs outMax else out
  if out < -fabs outMax then -fabs outMax else out

/-- The body of the controllers: measurement `pre`, target `tar`. -/
def piControl (pid : PIStruct F) (pre tar : F) : PIStruct F :=
  let bias := tar - pre
  let out := pid.out + (pid.kp * (bias - pid.lastBias) + pid.ki * bias)
  { pid with pre := pre, tar := tar, bias := bias, lastBias := bias,
             out := clampOut pid.outMax out }

def currentPIControlID (pFOC : FOCState F) : FOCState F :=
  { pFOC with idPID := piControl pFOC.idPID pFOC.Id pFOC.tarid }

def currentPIControlIQ (pFOC : FOCState F) : FOCState F :=
  let pFOC := { pFOC with iqPID := { pFOC.iqPID with tar := pFOC.tariq } }
  -- the speed loop's output replaces the target
  { pFOC with iqPID := piControl pFOC.iqPID pFOC.Iq pFOC.speedPID.out }

def speedPIControl (pFOC : FOCState F) : FOCState F :=
  { pFOC with speedPID := piControl pFOC.speedPID pFOC.speed pFOC.tarSpeed }

end Controllers

/-! ## The three loops -/

inductive Loop where
  | id
  | iq
  | speed
  deriving Repr, DecidableEq

namespace Loop

variable {F : Type}

def pid : Loop → FOCState F → PIStruct F
  | id, pFOC => pFOC.idPID
  | iq, pFOC => pFOC.iqPID
  | speed, pFOC => pFOC.speedPID

/-- The member a controller takes its target from. -/
def target : Loop → FOCState F → F
  | id, pFOC => pFOC.tarid
  | iq, pFOC => pFOC.speedPID.out
  | speed, pFOC => pFOC.tarSpeed

/-- Stores a measurement where the controller reads it. -/
def measure (l : Loop) (pre : F) (pFOC : FOCState F) : FOCState F :=
  match l with
  | id => { pFOC with Id := pre }
  | iq => { pFOC with Iq := pre }
  | speed => { pFOC with speed := pre }

/-- Stores a target where the controller reads it. -/
def aim (l : Loop) (tar : F) (pFOC : FOCState F) : FOCState F :=
  match l with
  | id => { pFOC with tarid := tar }
  | iq => { pFOC with speedPID := { pFOC.speedPID with out := tar } }
  | speed => { pFOC with tarSpeed := tar }

variable [Add F] [Sub F] [Mul F] [Neg F] [LT F] [DecidableLT F] [Fabs F]

def control : Loop → FOCState F → FOCState F
  | id => currentPIControlID
  | iq => currentPIControlIQ
  | speed => speedPIControl

/-- The three controllers are one step on their own record, measurement and target. -/
theorem pid_control (l : Loop) (pre : F) (pFOC : FOCState F) :
    l.pid (l.control (l.measure pre pFOC)) = piControl (l.pid pFOC) pre (l.target pFOC) := by
  cases l <;> rfl

end Loop

section Setters

variable {F : Type}

def setCurrentPIDTar (pFOC : FOCState F) (tarid tariq : F) : FOCState F :=
  { pFOC with tarid := tarid, tariq := tariq }

def setCurrentPIDParams (pFOC : FOCState F) (kp ki kd outMax : F) : FOCState F :=
  { pFOC with
    idPID := { pFOC.idPID with kp := kp, ki := ki, kd := kd, outMax := outMax }
    iqPID := { pFOC.iqPID with kp := kp, ki := ki, kd := kd, outMax := outMax } }

def setSpeedPIDTar (pFOC : FOCState F) (tarspeed : F) : FOCState F :=
  { pFOC with tarSpeed := tarspeed }

def setSpeedPIDParams (pFOC : FOCState F) (kp ki kd outMax : F) : FOCState F :=
  { pFOC with speedPID := { pFOC.speedPID with kp := kp, ki := ki, kd := kd, outMax := outMax } }

end Setters

/-- The wrapped angle difference of `CalculateSpeed`. -/
def angleDiff (mechanicalAngle speedLastAngle : ℚ) : ℚ :=
  let angleDiff := mechanicalAngle - speedLastAngle
  if angleDiff > 3.14159 then angleDiff - 6.28318
  else if angleDiff < -3.14159 then angleDiff + 6.28318
  else angleDiff

/-- Its speed before the filter. -/
def rawSpeed (pFOC : FOCState ℚ) (dt : ℚ) : ℚ :=
  angleDiff pFOC.mechanicalAngle pFOC.speedLastAngle / dt

def calculateSpeed (pFOC : FOCState ℚ) (dt : ℚ) (pSpeedFilter : LPFSpeed) :
    FOCState ℚ × LPFSpeed :=
  let speed := rawSpeed pFOC dt
  let (pSpeedFilter, speed) := lpfSpeedUpdate pSpeedFilter speed
  ({ pFOC with speed := speed, speedLastAngle := pFOC.mechanicalAngle }, pSpeedFilter)

/-! ## Over the rationals -/

/-- What the controller carries from step to step. -/
def PIStruct.state (pid : PIStruct ℚ) : PIState ℚ := ⟨pid.out, pid.lastBias⟩

theorem clampOut_eq (outMax out : ℚ) : clampOut outMax out = clampSym outMax out := by
  simp only [clampOut, clampSym, fabs_rat]

/-- The controllers are the incremental PI step on their own gains. -/
theorem piControl_state (pid : PIStruct ℚ) (pre tar : ℚ) :
    (piControl pid pre tar).state = piStep pid.kp pid.ki pid.outMax pid.state (tar - pre) := by
  simp only [piControl, PIStruct.state, piStep, clampOut_eq]

theorem piControl_abs_le (pid : PIStruct ℚ) (pre tar : ℚ) :
    |(piControl pid pre tar).out| ≤ |pid.outMax| := by
  have h := piStep_abs_le pid.kp pid.ki pid.outMax pid.state (tar - pre)
  rwa [← piControl_state] at h

@[simp] theorem piControl_outMax (pid : PIStruct ℚ) (pre tar : ℚ) :
    (piControl pid pre tar).outMax = pid.outMax := rfl

/-- The q-axis target set by `SetCurrentPIDTar` has no influence on the controller. -/
theorem currentPIControlIQ_tariq (pFOC : FOCState ℚ) (tariq : ℚ) :
    (currentPIControlIQ { pFOC with tariq := tariq }).iqPID = (currentPIControlIQ pFOC).iqPID := rfl

end At32Foc
