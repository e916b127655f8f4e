import At32Foc.SingleMotor

/-!
# Staged parameters

The parser writes into the staged sets `pid_params_1` and `pid_params_2`; the apply
phase copies a set to the controllers when one of its two commit flags is 0.  The
main loop applies, then parses one message if there is one, with interrupts in
between (`iterate`); the history of a run is what the staged sets were after each
message.

* `apply_held`: what an apply phase does to the committed values, and to the flag.
* `interrupts_keep`: interrupts leave committed values and staged sets alone.
* `Consistent`: a flag is 0 only if the last message left it so, and otherwise the
  controllers hold what the last committing message left (`standing`).
* `staged_by_own_commit`: so they do after every apply phase.
-/

namespace At32Foc

open ControlLib

/-! ## The two commits of a group -/

structure Gains where
  kp : ℚ
  ki : ℚ
  kd : ℚ
  outMax : ℚ

def PIStruct.gains (pid : PIStruct ℚ) : Gains := ⟨pid.kp, pid.ki, pid.kd, pid.outMax⟩

/-- What a commit writes: targets, and the gains of its controllers. -/
structure Tuning where
  targets : List ℚ
  gains : List Gains

inductive Commit where
  | current
  | speed
  deriving Repr, DecidableEq

namespace Commit

def flag (c : Commit) (pid : PIDParams ℚ) : UInt8 :=
  match c with
  | current => pid.CurrentSetFlag
  | speed => pid.SpeedSetFlag

/-- What the controllers of a motor work with. -/
def held (c : Commit) (pFOC : FOCState ℚ) : Tuning :=
  match c with
  | current => ⟨[pFOC.tarid, pFOC.tariq], [pFOC.idPID.gains, pFOC.iqPID.gains]⟩
  | speed => ⟨[pFOC.tarSpeed], [pFOC.speedPID.gains]⟩

/-- What they work with after the commit of a staged set. -/
def staged (c : Commit) (pid : PIDParams ℚ) : Tuning :=
  match c with
  | current =>
    let gains : Gains := ⟨pid.CurrentKP, pid.CurrentKI, pid.CurrentKD, 6.0⟩
    ⟨[pid.Id, pid.Iq], [gains, gains]⟩
  | speed => ⟨[pid.Speed], [⟨pid.SpeedKP, pid.SpeedKI, pid.SpeedKD, 40.0⟩]⟩

end Commit

/-! ## Frame facts -/

/-- An apply phase commits what is pending, keeps the rest, and leaves nothing pending. -/
theorem apply_held (c : Commit) (v : MotorView) :
    c.flag v.apply.params ≠ 0 ∧
      c.held v.apply.foc = if c.flag v.params = 0 then c.staged v.params else c.held v.foc := by
  unfold MotorView.apply applyCurrent applySpeed
  cases c with
  | current =>
    by_cases hc : v.params.CurrentSetFlag = 0 <;> by_cases hs : v.params.SpeedSetFlag = 0 <;>
      simp [Commit.flag, hc, hs] <;> rfl
  | speed =>
    by_cases hc : v.params.CurrentSetFlag = 0 <;> by_cases hs : v.params.SpeedSetFlag = 0 <;>
      simp [Commit.flag, hc, hs] <;> rfl

section Held

variable (c : Commit)

theorem SameButAngles.held {p q : FOCState ℚ} (h : SameButAngles p q) : c.held q = c.held p := by
  obtain ⟨a, e, g, z, rfl⟩ := h
  cases c <;> rfl

theorem sampleAD_held (hw : Inputs) (pFOC : FOCState ℚ) :
    c.held (sampleAD hw pFOC) = c.held pFOC := by
  unfold sampleAD
  split_ifs <;> cases c <;> rfl

theorem control_held (m : Motor) (v : MotorView) (ad : ADBuffer) (angle : ℚ) :
    c.held (v.control m ad angle).foc = c.held v.foc :=
  focContorl_keeps c.held (SameButAngles.held c) (sampleAD_held c) (fun _ _ => by cases c <;> rfl)
    (fun _ => by cases c <;> rfl) _ _

theorem tick_held (v : MotorView) : c.held v.tick.foc = c.held v.foc := by
  cases c <;> rfl

end Held

/-! ## Iterations of the main loop -/

def Event.isInterrupt : Event → Bool
  | .adc1 _ _ | .adc3 _ _ | .tmr5 => true
  | .apply | .parse _ => false

/-- The events that are not phases of the main loop. -/
abbrev Interrupt : Type := { e : Event // e.isInterrupt = true }

structure Iteration where
  /-- Interrupts before the apply phase, and between it and the parse phase. -/
  before : List Interrupt
  between : List Interrupt
  msg : Option (List UInt8)

/-- The staged sets after each message so far, oldest first. -/
abbrev History : Type := List (Motor → PIDParams ℚ)

section Runs

variable (strtof : List UInt8 → ℚ)

def interrupts (s : Sys) (irqs : List Interrupt) : Sys :=
  run (fun s irq => step strtof s irq.val) s irqs

/-- Up to the end of an apply phase. -/
def applyPhase (s : Sys) (irqs : List Interrupt) : Sys :=
  step strtof (interrupts strtof s irqs) .apply

def iterate (r : Sys × History) (it : Iteration) : Sys × History :=
  let s := interrupts strtof (applyPhase strtof r.1 it.before) it.between
  match it.msg with
  | none => (s, r.2)
  | some msg =>
    let s := step strtof s (.parse msg)
    (s, r.2 ++ [fun g => (s.view g).params])

/-- The staged set of a group as the last message that left a commit pending left it;
the boot values if there was none. -/
def standing (c : Commit) (g : Motor) (hist : History) : PIDParams ℚ :=
  ((hist.map fun ps => ps g).filter fun pid => c.flag pid = 0).getLast?.getD pidParamsInit

theorem standing_append (c : Commit) (g : Motor) (hist : History) (ps : Motor → PIDParams ℚ) :
    standing c g (hist ++ [ps]) = if c.flag (ps g) = 0 then ps g else standing c g hist := by
  unfold standing
  split_ifs with h <;> simp [h]

/-! ## One iteration -/

/-- Committed values and staged sets agree. -/
def SameSettings (s t : Sys) : Prop :=
  ∀ (g : Motor) (c : Commit),
    c.held (t.view g).foc = c.held (s.view g).foc ∧ (t.view g).params = (s.view g).params

theorem Interrupt.forMotor {irq : Interrupt} {g : Motor} {o : MotorEvent}
    (h : irq.val.forMotor g = some o) : (∃ ad angle, o = .control ad angle) ∨ o = .tick := by
  obtain ⟨e, hi⟩ := irq
  cases e with
  | adc1 ad angle =>
    simp only [Event.forMotor, Option.ite_none_right_eq_some, Option.some.injEq] at h
    exact .inl ⟨ad, angle, h.2.symm⟩
  | adc3 ad angle =>
    simp only [Event.forMotor, Option.ite_none_right_eq_some, Option.some.injEq] at h
    exact .inl ⟨ad, angle, h.2.symm⟩
  | tmr5 =>
    cases h
    exact .inr rfl
  | apply => cases hi
  | parse msg => cases hi

theorem interrupt_keeps {s : Sys} (hs : Wired s) (irq : Interrupt) :
    SameSettings s (step strtof s irq.val) := by
  intro g c
  cases he : irq.val.forMotor g with
  | none =>
    rw [view_step_none strtof hs he]
    exact ⟨rfl, rfl⟩
  | some o =>
    rw [view_step_some strtof hs he]
    rcases Interrupt.forMotor he with ⟨ad, angle, rfl⟩ | rfl
    · exact ⟨control_held c g _ ad angle, rfl⟩
    · exact ⟨tick_held c _, rfl⟩

theorem interrupts_keep {s : Sys} (hs : Wired s) (irqs : List Interrupt) :
    Wired (interrupts strtof s irqs) ∧ SameSettings s (interrupts strtof s irqs) := by
  refine run_invariant (I := fun t => Wired t ∧ SameSettings s t) (fun t irq h => ?_) irqs s
    ⟨hs, fun _ _ => ⟨rfl, rfl⟩⟩
  have hk := interrupt_keeps strtof h.1 irq
  exact ⟨step_wired strtof t irq.val h.1,
    fun g c => ⟨(hk g c).1.trans (h.2 g c).1, (hk g c).2.trans (h.2 g c).2⟩⟩

/-- Between iterations: what is pending is what the last message left, and what is not
pending is in the controllers. -/
structure Consistent (s : Sys) (hist : History) : Prop where
  wired : Wired s
  pending : ∀ (g : Motor) (c : Commit), c.flag (s.view g).params = 0 →
    standing c g hist = (s.view g).params
  settled : ∀ (g : Motor) (c : Commit), c.flag (s.view g).params ≠ 0 →
    c.held (s.view g).foc = c.staged (standing c g hist)

/-- After an apply phase: nothing is pending. -/
structure Applied (s : Sys) (hist : History) : Prop where
  wired : Wired s
  idle : ∀ (g : Motor) (c : Commit), c.flag (s.view g).params ≠ 0
  held : ∀ (g : Motor) (c : Commit), c.held (s.view g).foc = c.staged (standing c g hist)

variable {strtof} {s : Sys} {hist : History}

theorem Applied.consistent (h : Applied s hist) : Consistent s hist :=
  ⟨h.wired, fun g c h0 => absurd h0 (h.idle g c), fun g c _ => h.held g c⟩

theorem Consistent.interrupts (h : Consistent s hist) (irqs : List Interrupt) :
    Consistent (interrupts strtof s irqs) hist := by
  obtain ⟨hw, hk⟩ := interrupts_keep strtof h.wired irqs
  refine ⟨hw, fun g c h0 => ?_, fun g c h0 => ?_⟩
  · rw [(hk g c).2] at h0 ⊢
    exact h.pending g c h0
  · rw [(hk g c).2] at h0
    rw [(hk g c).1]
    exact h.settled g c h0

theorem Applied.interrupts (h : Applied s hist) (irqs : List Interrupt) :
    Applied (interrupts strtof s irqs) hist := by
  obtain ⟨hw, hk⟩ := interrupts_keep strtof h.wired irqs
  refine ⟨hw, fun g c => ?_, fun g c => ?_⟩
  · rw [(hk g c).2]
    exact h.idle g c
  · rw [(hk g c).1]
    exact h.held g c

theorem Consistent.apply (h : Consistent s hist) : Applied (step strtof s .apply) hist := by
  have hv : ∀ g, (step strtof s .apply).view g = (s.view g).apply := fun g => view_mainApply g s
  refine ⟨step_wired strtof s .apply h.wired, fun g c => ?_, fun g c => ?_⟩
  · rw [hv]
    exact (apply_held c (s.view g)).1
  · rw [hv, (apply_held c (s.view g)).2]
    split_ifs with h0
    · rw [h.pending g c h0]
    · exact h.settled g c h0

/-- A message goes to the staged sets alone, and is entered in the history. -/
theorem Applied.parse (h : Applied s hist) (msg : List UInt8) :
    Consistent (step strtof s (.parse msg))
      (hist ++ [fun g => ((step strtof s (.parse msg)).view g).params]) := by
  have hfoc : ∀ g, ((step strtof s (.parse msg)).view g).foc = (s.view g).foc := by
    intro g
    cases g <;> rfl
  refine ⟨step_wired strtof s _ h.wired, fun g c h0 => ?_, fun g c h0 => ?_⟩
  · rw [standing_append, if_pos h0]
  · rw [standing_append, if_neg h0, hfoc]
    exact h.held g c

theorem Consistent.iterate {r : Sys × History} (h : Consistent r.1 r.2) (it : Iteration) :
    Consistent (iterate strtof r it).1 (iterate strtof r it).2 := by
  have ha : Applied (At32Foc.interrupts strtof (applyPhase strtof r.1 it.before) it.between) r.2 :=
    (h.interrupts it.before).apply.interrupts it.between
  unfold At32Foc.iterate
  cases it.msg with
  | none => exact ha.consistent
  | some msg => exact ha.parse msg

end Runs

/-! ## Every run -/

theorem bootFoc_held (c : Commit) (m : Motor) (fg : ℕ → Inputs) :
    c.held (bootFoc m fg) = c.staged pidParamsInit := by
  cases c <;> rfl

theorem bootView_held (c : Commit) (m : Motor) (fg ai : ℕ → Inputs) :
    c.held (bootView m fg ai).foc = c.staged pidParamsInit := by
  have hd : c.held (strongDrag (bootFoc m fg) ⟨bootTmr.of m, bootTmr.of m⟩).1 =
      c.staged pidParamsInit := by
    rw [← bootFoc_held c m fg]
    cases c <;> rfl
  unfold bootView angleInit
  generalize strongDrag (bootFoc m fg) ⟨bootTmr.of m, bootTmr.of m⟩ = dragged at hd ⊢
  exact ((angleInitZero_same ai dragged.1).held c).trans hd

/-- At boot nothing is pending, and the controllers have the initial values of the staged
sets. -/
theorem boot_consistent (b : BootInputs) : Consistent (boot b) [] := by
  have hp : ∀ g, ((boot b).view g).params = pidParamsInit := by
    intro g
    cases g <;> rfl
  have hflag (c : Commit) : c.flag pidParamsInit ≠ 0 := by cases c <;> decide
  refine ⟨boot_wired b, fun g c h0 => ?_, fun g c _ => ?_⟩
  · rw [hp] at h0
    exact absurd h0 (hflag c)
  · rw [view_boot]
    exact bootView_held c g _ _

theorem run_consistent (strtof : List UInt8 → ℚ) (b : BootInputs) (its : List Iteration) :
    Consistent (run (iterate strtof) (boot b, []) its).1
      (run (iterate strtof) (boot b, []) its).2 :=
  run_invariant (I := fun r => Consistent r.1 r.2) (fun _ it h => h.iterate it) its (boot b, [])
    (boot_consistent b)

/-- **Staging.**  After boot, any iterations and one more apply phase, the current loops of
every motor have the values that its staged set had right after the last message that left
`Current_set_flag` at 0, the speed loop those right after the last that left
`Speed_set_flag` at 0, and the limits are 6 and 40. -/
theorem staged_by_own_commit (strtof : List UInt8 → ℚ) (b : BootInputs) (its : List Iteration)
    (irqs : List Interrupt) (g : Motor) :
    let r := run (iterate strtof) (boot b, []) its
    let pFOC := ((applyPhase strtof r.1 irqs).view g).foc
    let cur := standing .current g r.2
    let spd := standing .speed g r.2
    (pFOC.tarid = cur.Id ∧ pFOC.tariq = cur.Iq) ∧
      (∀ pid ∈ [pFOC.idPID, pFOC.iqPID], pid.kp = cur.CurrentKP ∧ pid.ki = cur.CurrentKI ∧
        pid.kd = cur.CurrentKD ∧ pid.outMax = 6) ∧
      pFOC.tarSpeed = spd.Speed ∧
      pFOC.speedPID.kp = spd.SpeedKP ∧ pFOC.speedPID.ki = spd.SpeedKI ∧
      pFOC.speedPID.kd = spd.SpeedKD ∧ pFOC.speedPID.outMax = 40 := by
  intro r pFOC cur spd
  have ha : Applied (applyPhase strtof r.1 irqs) r.2 :=
    ((run_consistent strtof b its).interrupts irqs).apply
  have hc := ha.held g .current
  have hs := ha.held g .speed
  simp only [Commit.held, Commit.staged, PIStruct.gains, Tuning.mk.injEq, List.cons.injEq,
    Gains.mk.injEq, and_true] at hc hs
  obtain ⟨ht, hid, hiq⟩ := hc
  obtain ⟨hsp, hkp, hki, hkd, hmax⟩ := hs
  have h6 : (6.0 : ℚ) = 6 := by norm_num
  have h40 : (40.0 : ℚ) = 40 := by norm_num
  rw [h6] at hid hiq
  rw [h40] at hmax
  refine ⟨ht, ?_, hsp, hkp, hki, hkd, hmax⟩
  rintro pid hpid
  rcases List.mem_pair.mp hpid with rfl | rfl
  · exact hid
  · exact hiq

end At32Foc
