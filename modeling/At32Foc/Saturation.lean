import At32Foc.Lib.Run
import At32Foc.Control

/-!
# Saturation of the three controllers

`CurrentPIControlID`, `CurrentPIControlIQ` and `SpeedPIControl` run the same
incremental PI step on different members of the record (`Loop.run_state`).  From
rest, nonnegative errors up to `B` never drive a controller negative exactly when
the proportional term of `B` alone stays within the limit:

    (∀ errors in [0, B], 0 ≤ out) ↔ outMax = 0 ∨ kp * B ≤ |outMax|       (controller_nonneg_iff)

and likewise with the signs reversed.  Beyond the limit the clamp forgets part of
the proportional term, and a falling error takes all of it back.  As long as the clamp has
nothing to do, a controller is the positional law `kp * e_n + ki * (e_1 + ... + e_n)`
(`controller_positional`).
-/

namespace At32Foc

open ControlLib

/-! ## The three loops -/

/-- A measurement and a target. -/
structure LoopInput where
  pre : ℚ
  tar : ℚ
  deriving Repr, DecidableEq

def LoopInput.bias (x : LoopInput) : ℚ := x.tar - x.pre

namespace Loop

/-- One call of the controller. -/
def step (l : Loop) (pFOC : FOCState ℚ) (x : LoopInput) : FOCState ℚ :=
  l.control (l.measure x.pre (l.aim x.tar pFOC))

/-- Gains and limit. -/
def Gains (l : Loop) (kp ki M : ℚ) (pFOC : FOCState ℚ) : Prop :=
  (l.pid pFOC).kp = kp ∧ (l.pid pFOC).ki = ki ∧ (l.pid pFOC).outMax = M

theorem step_gains {l : Loop} {kp ki M : ℚ} (pFOC : FOCState ℚ) (x : LoopInput)
    (h : l.Gains kp ki M pFOC) : l.Gains kp ki M (l.step pFOC x) := by
  cases l <;> exact h

theorem step_state {l : Loop} {kp ki M : ℚ} (pFOC : FOCState ℚ) (x : LoopInput)
    (h : l.Gains kp ki M pFOC) :
    (l.pid (l.step pFOC x)).state = piStep kp ki M (l.pid pFOC).state x.bias := by
  obtain ⟨rfl, rfl, rfl⟩ := h
  rw [step, pid_control, piControl_state]
  cases l <;> rfl

/-- A run of a controller in the record is a run of the incremental PI. -/
theorem run_state {l : Loop} {kp ki M : ℚ} {pFOC : FOCState ℚ} (h : l.Gains kp ki M pFOC)
    (xs : List LoopInput) : (l.pid (run l.step pFOC xs)).state =
      run (piStep kp ki M) (l.pid pFOC).state (xs.map LoopInput.bias) :=
  run_map (l.Gains kp ki M) (fun p => (l.pid p).state) (piStep kp ki M)
    (fun p x hp => step_gains p x hp) (fun p x hp => step_state p x hp) xs pFOC h

/-- From rest, a statement about the outputs on all admitted inputs is one about the
incremental PI on all admitted errors. -/
theorem forall_run_iff {l : Loop} {kp ki M : ℚ} {pFOC : FOCState ℚ} (h : l.Gains kp ki M pFOC)
    (h0 : (l.pid pFOC).out = 0 ∧ (l.pid pFOC).lastBias = 0) (C P : ℚ → Prop) :
    (∀ xs : List LoopInput, (∀ x ∈ xs, C x.bias) → P (l.pid (run l.step pFOC xs)).out) ↔
      ∀ bs : List ℚ, (∀ b ∈ bs, C b) → P (run (piStep kp ki M) piRest bs).out := by
  have hrest : (l.pid pFOC).state = piRest := by simp only [PIStruct.state, piRest, h0]
  have hout : ∀ xs, (l.pid (run l.step pFOC xs)).out =
      (run (piStep kp ki M) piRest (xs.map LoopInput.bias)).out := by
    intro xs
    rw [← hrest]
    exact congrArg PIState.out (run_state h xs)
  constructor
  · intro hall bs hbs
    have hmap : (bs.map fun b => (⟨0, b⟩ : LoopInput)).map LoopInput.bias = bs := by
      simp [Function.comp_def, LoopInput.bias]
    have hx := hall (bs.map fun b => ⟨0, b⟩) (by simpa [LoopInput.bias] using hbs)
    rwa [hout, hmap] at hx
  · intro hall xs hxs
    rw [hout]
    exact hall _ (by simpa using hxs)

/-- The step on `x` ends within the limit before the clamp. -/
def Unclamped (l : Loop) (pFOC : FOCState ℚ) (x : LoopInput) : Prop :=
  let pid := l.pid pFOC
  |pid.out + (pid.kp * (x.bias - pid.lastBias) + pid.ki * x.bias)| ≤ |pid.outMax|

instance (l : Loop) (pFOC : FOCState ℚ) (x : LoopInput) : Decidable (l.Unclamped pFOC x) :=
  inferInstanceAs (Decidable (_ ≤ _))

theorem allSteps_unclamped {l : Loop} {kp ki M : ℚ} {pFOC : FOCState ℚ}
    (h : l.Gains kp ki M pFOC) {xs : List LoopInput} (hxs : AllSteps l.Unclamped l.step pFOC xs) :
    AllSteps (ControlLib.Unclamped kp ki M) (piStep kp ki M) (l.pid pFOC).state
      (xs.map LoopInput.bias) := by
  refine allSteps_image (I := l.Gains kp ki M) (v := fun p => (l.pid p).state)
    (fun p x hp => step_gains p x hp) (fun p x hp => step_state p x hp) ?_ xs pFOC h hxs
  rintro p x ⟨rfl, rfl, rfl⟩ hx
  exact hx

end Loop

/-! ## Results -/

/-- **Saturation.**  From rest, with nonnegative gains, errors of one sign up to `B` keep
the output on their side after every step exactly when `outMax = 0` or `kp * B` is within
the limit. -/
theorem controller_nonneg_iff (l : Loop) (pFOC : FOCState ℚ) (kp ki M B : ℚ)
    (h : l.Gains kp ki M pFOC) (h0 : (l.pid pFOC).out = 0 ∧ (l.pid pFOC).lastBias = 0)
    (hkp : 0 ≤ kp) (hki : 0 ≤ ki) (hB : 0 ≤ B) :
    ((∀ xs : List LoopInput, (∀ x ∈ xs, 0 ≤ x.bias ∧ x.bias ≤ B) →
        0 ≤ (l.pid (run l.step pFOC xs)).out) ↔ M = 0 ∨ kp * B ≤ |M|) ∧
    ((∀ xs : List LoopInput, (∀ x ∈ xs, -B ≤ x.bias ∧ x.bias ≤ 0) →
        (l.pid (run l.step pFOC xs)).out ≤ 0) ↔ M = 0 ∨ kp * B ≤ |M|) := by
  constructor
  · rw [Loop.forall_run_iff h h0 (fun b => 0 ≤ b ∧ b ≤ B) (fun o => 0 ≤ o)]
    exact piRun_nonneg_iff hkp hki hB
  · rw [Loop.forall_run_iff h h0 (fun b => -B ≤ b ∧ b ≤ 0) (fun o => o ≤ 0)]
    exact piRun_nonpos_iff hkp hki hB

/-- A motor at rest with the gains and limits of the boot sequence. -/
def restFOC : FOCState ℚ :=
  let pFOC := setCurrentPIDParams Motor_1 0.04 0.04 0.0 6.0
  setSpeedPIDParams pFOC 0.3 0.01 0.0 40.0

theorem controller_nonneg_iff_boot :
    0 ≤ (Loop.speed.pid (run Loop.speed.step restFOC [⟨0, 100⟩, ⟨100, 100⟩])).out := by
  refine (controller_nonneg_iff .speed restFOC 0.3 0.01 40 100 (by
    norm_num [Loop.Gains, Loop.pid, restFOC, setSpeedPIDParams]) (by
    norm_num [Loop.pid, restFOC, setSpeedPIDParams, setCurrentPIDParams, Motor_1, motorInit,
      zeroPID]) (by norm_num) (by norm_num) (by norm_num)).1.mpr (Or.inr (by norm_num)) _ ?_
  intro x hx
  simp only [List.mem_cons, List.not_mem_nil, or_false] at hx
  rcases hx with rfl | rfl <;> norm_num [LoopInput.bias]

/-- With the boot gains, an error that saturates the output and then vanishes: every
controller ends on the other side. -/
theorem controller_reverses :
    (Loop.id.pid (run Loop.id.step restFOC [⟨0, 160⟩, ⟨160, 160⟩])).out = -0.4 ∧
      (Loop.iq.pid (run Loop.iq.step restFOC [⟨0, 160⟩, ⟨160, 160⟩])).out = -0.4 ∧
      (Loop.speed.pid (run Loop.speed.step restFOC [⟨0, 150⟩, ⟨150, 150⟩])).out = -5 := by
  decide +kernel

/-- **Positional law.**  From rest, as long as no step was clamped, the output is the
proportional term of the last error plus the integral of all of them. -/
theorem controller_positional (l : Loop) (pFOC : FOCState ℚ) (kp ki M : ℚ)
    (h : l.Gains kp ki M pFOC) (h0 : (l.pid pFOC).out = 0 ∧ (l.pid pFOC).lastBias = 0)
    (xs : List LoopInput) (x : LoopInput)
    (hxs : AllSteps l.Unclamped l.step pFOC (xs ++ [x])) :
    let pid := l.pid (run l.step pFOC (xs ++ [x]))
    pid.out = kp * x.bias + ki * ((xs ++ [x]).map LoopInput.bias).sum ∧ pid.lastBias = x.bias := by
  have hrest : (l.pid pFOC).state = piRest := by simp only [PIStruct.state, piRest, h0]
  have hall := Loop.allSteps_unclamped h hxs
  have hrun := Loop.run_state h (xs ++ [x])
  rw [hrest, List.map_append, List.map_cons, List.map_nil] at hall hrun
  rw [piRun_positional _ _ hall] at hrun
  rw [List.map_append, List.map_cons, List.map_nil]
  exact ⟨congrArg PIState.out hrun, congrArg PIState.lastBias hrun⟩

/-- Three errors that stay far from the limit, for the q-axis controller. -/
theorem controller_positional_small :
    (Loop.iq.pid (run Loop.iq.step restFOC ([⟨0, 10⟩, ⟨5, 20⟩] ++ [⟨30, 20⟩]))).out = 0.2 := by
  have h := (controller_positional .iq restFOC 0.04 0.04 6 (by
    norm_num [Loop.Gains, Loop.pid, restFOC, setSpeedPIDParams, setCurrentPIDParams]) (by
    norm_num [Loop.pid, restFOC, setSpeedPIDParams, setCurrentPIDParams, Motor_1, motorInit,
      zeroPID]) [⟨0, 10⟩, ⟨5, 20⟩] ⟨30, 20⟩ (by decide +kernel)).1
  rw [h]
  norm_num [LoopInput.bias]

end At32Foc
