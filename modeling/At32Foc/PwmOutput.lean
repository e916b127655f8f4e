import At32Foc.Lib.CentreAlignedPwm
import At32Foc.ActuatorSafety

/-!
# The PWM outputs

`wk_tmr4_init` and `wk_tmr2_init` let the timers count up to 4999 and down again
(`TMR_COUNT_TWO_WAY_1`), with their outputs in PWM mode A and the compare registers not
buffered, so that a store takes effect at once.  `inverterStep` runs the two counters beside
the system, in any interleaving.

* `no_phase_before_trigger`: no phase is high while the channel that starts the ADC is low.
* `phase_low_each_period`: in every period every phase is low for a tenth of the time.
* `pwm_realises_duties`: between two control steps the outputs are those of the stored duties.
-/

namespace At32Foc

open ControlLib

/-! ## Algorithm -/

inductive PwmPhase where
  | A
  | B
  | C
  deriving Repr, DecidableEq

/-- The compare register of a phase. -/
def TmrType.compare (m : Motor) (p : PwmPhase) (t : TmrType) : ℤ :=
  match m, p with
  | .M1, .A => t.c3dt
  | .M1, .B => t.c2dt
  | .M1, .C => t.c1dt
  | .M2, .A => t.c4dt
  | .M2, .B => t.c2dt
  | .M2, .C => t.c1dt

def SVpwmState.duty (p : PwmPhase) (s : SVpwmState) : ℚ :=
  match p with
  | .A => s.Ta
  | .B => s.Tb
  | .C => s.Tc

/-- The period value of both timers. -/
def TMR_PR : ℕ := 4999

/-- The counts of a period. -/
def PWM_PERIOD : ℕ := 2 * TMR_PR

structure Inverter where
  sys : Sys
  /-- The counter of the PWM timer of a motor. -/
  cnt : Motor → UpDownCounter

inductive InverterEvent where
  | count (m : Motor)
  | system (e : Event)

def inverterStep (strtof : List UInt8 → ℚ) (s : Inverter) : InverterEvent → Inverter
  | .count m => { s with cnt := Function.update s.cnt m ((s.cnt m).count TMR_PR) }
  | .system e => { s with sys := step strtof s.sys e }

/-- The system after boot, with timers that have been counting for a while. -/
def inverterBoot (b : BootInputs) (i : Motor → ℕ) : Inverter :=
  ⟨boot b, fun m => UpDownCounter.counterAt TMR_PR (i m)⟩

namespace Inverter

def output (m : Motor) (p : PwmPhase) (s : Inverter) : Bool :=
  (s.cnt m).high ((s.sys.tmr.of m).compare m p)

/-- The output of the channel that starts the ADC. -/
def triggerOutput (m : Motor) (s : Inverter) : Bool :=
  (s.cnt m).high ((s.sys.tmr.of m).trigger m)

/-- The counts of a run for which a phase is high. -/
def onTime (strtof : List UInt8 → ℚ) (m : Motor) (p : PwmPhase) : Inverter → List InverterEvent → ℕ
  | _, [] => 0
  | s, .count m' :: evs =>
    (if m' = m ∧ s.output m p = true then 1 else 0) +
      onTime strtof m p (inverterStep strtof s (.count m')) evs
  | s, .system e :: evs => onTime strtof m p (inverterStep strtof s (.system e)) evs

end Inverter

/-- How often the timer of a motor counts in a run. -/
def counts (m : Motor) : List InverterEvent → ℕ
  | [] => 0
  | .count m' :: evs => (if m' = m then 1 else 0) + counts m evs
  | .system _ :: evs => counts m evs

/-! ## What the counters see -/

section Compares

variable (strtof : List UInt8 → ℚ) (m : Motor) (p : PwmPhase)

/-- The compare values of a phase at the counts of a run. -/
def compares : Inverter → List InverterEvent → List ℤ
  | _, [] => []
  | s, .count m' :: evs =>
    let rest := compares (inverterStep strtof s (.count m')) evs
    if m' = m then (s.sys.tmr.of m).compare m p :: rest else rest
  | s, .system e :: evs => compares (inverterStep strtof s (.system e)) evs

theorem compares_length (evs : List InverterEvent) (s : Inverter) :
    (compares strtof m p s evs).length = counts m evs := by
  induction evs generalizing s with
  | nil => rfl
  | cons e evs ih =>
    cases e with
    | count m' =>
      rw [compares, counts]
      split_ifs
      · rw [List.length_cons, ih, Nat.add_comm]
      · rw [ih, Nat.zero_add]
    | system e => exact ih _

theorem onTime_eq (evs : List InverterEvent) (s : Inverter) :
    s.onTime strtof m p evs =
      UpDownCounter.onTime TMR_PR (s.cnt m) (compares strtof m p s evs) := by
  induction evs generalizing s with
  | nil => rfl
  | cons e evs ih =>
    cases e with
    | count m' =>
      rw [Inverter.onTime, compares, ih]
      by_cases hm : m' = m
      · subst hm
        simp only [if_true, true_and, UpDownCounter.onTime, inverterStep, Function.update_self]
        rfl
      · simp only [hm, if_false, false_and, Nat.zero_add, inverterStep,
          Function.update_of_ne (Ne.symm hm)]
    | system e => exact ih _

/-- A property of the state, kept along a run, holds of the compare values it sees. -/
theorem forall_compares {I : Inverter → Prop} {C : InverterEvent → Prop} {P : ℤ → Prop}
    (hstep : ∀ s e, I s → C e → I (inverterStep strtof s e))
    (hP : ∀ s, I s → P ((s.sys.tmr.of m).compare m p)) (evs : List InverterEvent) (s : Inverter)
    (hs : I s) (hC : ∀ e ∈ evs, C e) : ∀ d ∈ compares strtof m p s evs, P d := by
  induction evs generalizing s with
  | nil => nofun
  | cons e evs ih =>
    have hrest := ih (inverterStep strtof s e) (hstep s e hs (hC e List.mem_cons_self))
      fun e' he' => hC e' (List.mem_cons_of_mem e he')
    cases e with
    | count m' =>
      rw [compares]
      split_ifs
      · exact List.forall_mem_cons.mpr ⟨hP s hs, hrest⟩
      · exact hrest
    | system e => exact hrest

end Compares

/-! ## The invariant -/

/-- Both motors are safe, and the counters are where counting takes them. -/
structure Inverter.Safe (s : Inverter) : Prop where
  wired : Wired s.sys
  views : ∀ m, (s.sys.view m).Safe m
  cnt : ∀ m, ∃ i, s.cnt m = UpDownCounter.counterAt TMR_PR i

theorem view_tmr (m : Motor) (s : Sys) : (s.view m).tmr = s.tmr.of m := by
  cases m <;> rfl

theorem inverterBoot_safe (b : BootInputs) (i : Motor → ℕ) : (inverterBoot b i).Safe where
  wired := boot_wired b
  views m := by
    show ((boot b).view m).Safe m
    rw [view_boot]
    exact bootView_safe m _ _
  cnt m := ⟨i m, rfl⟩

theorem inverterStep_safe (strtof : List UInt8 → ℚ) (s : Inverter) (e : InverterEvent)
    (h : s.Safe) : (inverterStep strtof s e).Safe := by
  cases e with
  | count m =>
    refine ⟨h.wired, h.views, fun m' => ?_⟩
    by_cases hm : m' = m
    · subst hm
      obtain ⟨i, hi⟩ := h.cnt m'
      refine ⟨i + 1, ?_⟩
      simp only [inverterStep, Function.update_self, hi]
      exact UpDownCounter.count_counterAt (by decide) i
    · simp only [inverterStep, Function.update_of_ne hm]
      exact h.cnt m'
  | system e =>
    refine ⟨step_wired strtof s.sys e h.wired, fun m => ?_, h.cnt⟩
    rw [inverterStep]
    cases he : e.forMotor m with
    | none =>
      rw [view_step_none strtof h.wired he]
      exact h.views m
    | some o =>
      rw [view_step_some strtof h.wired he]
      exact motorStep_safe strtof m _ o (h.views m)

theorem run_inverter_safe (strtof : List UInt8 → ℚ) (b : BootInputs) (i : Motor → ℕ)
    (evs : List InverterEvent) : (run (inverterStep strtof) (inverterBoot b i) evs).Safe :=
  run_invariant (inverterStep_safe strtof) evs (inverterBoot b i) (inverterBoot_safe b i)

theorem Inverter.Safe.compare {s : Inverter} (h : s.Safe) (m : Motor) (p : PwmPhase) :
    0 ≤ (s.sys.tmr.of m).compare m p ∧ (s.sys.tmr.of m).compare m p ≤ 4500 := by
  have ht := (h.views m).tmr.phases
  rw [view_tmr] at ht
  refine ht _ ?_
  cases m <;> cases p <;> simp [TmrType.compare, TmrType.phases]

theorem Inverter.Safe.trigger {s : Inverter} (h : s.Safe) (m : Motor) :
    (s.sys.tmr.of m).trigger m = 4500 := by
  have ht := (h.views m).tmr.trigger
  rwa [view_tmr] at ht

/-! ## Low phases -/

/-- **No phase is high before the ADC is triggered.**  In every state of every run a phase that
is high finds the trigger channel of its timer high: until that channel rises, all phases of
the period are low. -/
theorem no_phase_before_trigger (strtof : List UInt8 → ℚ) (b : BootInputs) (i : Motor → ℕ)
    (evs : List InverterEvent) (m : Motor) (p : PwmPhase) :
    let s := run (inverterStep strtof) (inverterBoot b i) evs
    s.output m p = true → s.triggerOutput m = true := by
  intro s hhigh
  have h : s.Safe := run_inverter_safe strtof b i evs
  have hle : (s.sys.tmr.of m).compare m p ≤ (s.sys.tmr.of m).trigger m := by
    rw [h.trigger m]
    exact (h.compare m p).2
  exact UpDownCounter.high_mono hle hhigh

/-- The on-time of a period with compare values within bounds. -/
theorem Inverter.Safe.onTime_bounds {s : Inverter} (h : s.Safe) (strtof : List UInt8 → ℚ)
    (m : Motor) (p : PwmPhase) {lo hi : ℕ} (hhi : hi ≤ TMR_PR) {mid : List InverterEvent}
    (hcount : counts m mid = PWM_PERIOD)
    (hmid : ∀ d ∈ compares strtof m p s mid, (lo : ℤ) ≤ d ∧ d ≤ hi) :
    2 * lo ≤ s.onTime strtof m p mid ∧ s.onTime strtof m p mid ≤ 2 * hi := by
  obtain ⟨i, hi⟩ := h.cnt m
  rw [onTime_eq, hi]
  exact UpDownCounter.onTime_bounds (by decide) hhi
    ((compares_length strtof m p mid s).trans hcount) hmid i

/-- **Every phase is low for a tenth of every period**, whatever happens in it. -/
theorem phase_low_each_period (strtof : List UInt8 → ℚ) (b : BootInputs) (i : Motor → ℕ)
    (pre mid : List InverterEvent) (m : Motor) (p : PwmPhase) (h : counts m mid = PWM_PERIOD) :
    (run (inverterStep strtof) (inverterBoot b i) pre).onTime strtof m p mid + 998 ≤
      PWM_PERIOD := by
  have hs := run_inverter_safe strtof b i pre
  have hmid := forall_compares strtof m p (C := fun _ => True)
    (P := fun d => ((0 : ℕ) : ℤ) ≤ d ∧ d ≤ ((4500 : ℕ) : ℤ))
    (fun s e hs _ => inverterStep_safe strtof s e hs) (fun s hs => hs.compare m p) mid _ hs
    fun _ _ => trivial
  have hon := (hs.onTime_bounds strtof m p (by decide) h hmid).2
  have hperiod : PWM_PERIOD = 9998 := rfl
  omega

theorem counts_replicate (m : Motor) (n : ℕ) :
    counts m (List.replicate n (.count m)) = n := by
  induction n with
  | zero => rfl
  | succ n ih =>
    rw [List.replicate_succ, counts, if_pos rfl, ih]
    exact Nat.add_comm _ _

theorem counts_append (m : Motor) (evs evs' : List InverterEvent) :
    counts m (evs ++ evs') = counts m evs + counts m evs' := by
  induction evs with
  | nil => exact (Nat.zero_add _).symm
  | cons e evs ih =>
    cases e with
    | count m' =>
      rw [List.cons_append, counts, counts, ih, Nat.add_assoc]
    | system e => exact ih

/-- A period with a control step that finds a current. -/
def controlPeriod : List InverterEvent :=
  List.replicate 4000 (.count .M1) ++ .system (.adc1 ⟨4095, 0⟩ 0) ::
    List.replicate 5998 (.count .M1)

/-- Right after boot. -/
theorem phase_low_each_period_boot :
    (run (inverterStep fun _ => 0)
      (inverterBoot (.const ⟨⟨0, 0⟩, ⟨0, 0⟩, 0, 0⟩) fun _ => 0) []).onTime (fun _ => 0) .M1 .A
        controlPeriod + 998 ≤ PWM_PERIOD := by
  refine phase_low_each_period (fun _ => 0) (.const ⟨⟨0, 0⟩, ⟨0, 0⟩, 0, 0⟩) (fun _ => 0) []
    controlPeriod .M1 .A ?_
  rw [controlPeriod, counts_append, counts, counts_replicate, counts_replicate]
  rfl

/-! ## The duties -/

/-- A control step of a motor. -/
def InverterEvent.Controls (m : Motor) : InverterEvent → Prop
  | .count _ => False
  | .system e => ∃ ad angle, e.forMotor m = some (.control ad angle)

/-- The compare value of a duty is its fraction of 4500 counts, rounded down. -/
theorem phaseCompare_near {pwm : ℚ} (h0 : 0 ≤ pwm) :
    4500 * pwm - 1 < phaseCompare pwm ∧ (phaseCompare pwm : ℚ) ≤ 4500 * pwm := by
  have e : pwm * ALL_Duty * 0.9 = 4500 * pwm := by norm_num [ALL_Duty]; ring
  have hnonneg : 0 ≤ 4500 * pwm := by linarith
  rw [phaseCompare, toUInt32, e, truncToInt_of_nonneg hnonneg]
  exact ⟨Int.sub_one_lt_floor _, Int.floor_le _⟩

/-- A control step stores the compare values of its duties. -/
theorem control_compare {m : Motor} {v : MotorView} (h : WiredFor m v.foc) (ad : ADBuffer)
    (angle : ℚ) (p : PwmPhase) : (v.control m ad angle).tmr.compare m p =
      phaseCompare ((v.control m ad angle).sv.duty p) := by
  have hset := (h.of_wiring (focMeasure_wiring (.both ad angle) v.foc v.lpf)).2
  unfold MotorView.control focContorl
  generalize focMeasure (.both ad angle) v.foc v.lpf = measured at hset ⊢
  simp only [setSVpwm, focControl_SetPWM, hset]
  cases m <;> cases p <;> rfl

/-- The other events of a motor leave its timer alone. -/
theorem motorStep_tmr (strtof : List UInt8 → ℚ) (m : Motor) (v : MotorView) {e : MotorEvent}
    (he : ∀ ad angle, e ≠ .control ad angle) : (motorStep strtof m v e).tmr = v.tmr := by
  cases e with
  | control ad angle => exact absurd rfl (he ad angle)
  | tick => rfl
  | apply => rfl
  | parse msg =>
    rw [motorStep, MotorView.parse]
    split <;> rfl

theorem inverterStep_tmr (strtof : List UInt8 → ℚ) {s : Inverter} (hs : s.Safe) {m : Motor}
    {e : InverterEvent} (he : ¬e.Controls m) :
    (inverterStep strtof s e).sys.tmr.of m = s.sys.tmr.of m := by
  cases e with
  | count m' => rfl
  | system e =>
    rw [← view_tmr, ← view_tmr]
    show ((step strtof s.sys e).view m).tmr = _
    cases ho : e.forMotor m with
    | none => rw [view_step_none strtof hs.wired ho]
    | some o =>
      rw [view_step_some strtof hs.wired ho]
      exact motorStep_tmr strtof m _ fun ad angle h => he ⟨ad, angle, h ▸ ho⟩

/-- So in a run without control steps of the motor. -/
theorem run_inverter_tmr (strtof : List UInt8 → ℚ) {s : Inverter} (hs : s.Safe) {m : Motor}
    {evs : List InverterEvent} (hevs : ∀ e ∈ evs, ¬e.Controls m) :
    (run (inverterStep strtof) s evs).Safe ∧
      (run (inverterStep strtof) s evs).sys.tmr.of m = s.sys.tmr.of m :=
  run_invariant_of (I := fun t => t.Safe ∧ t.sys.tmr.of m = s.sys.tmr.of m)
    (C := fun _ e => ¬e.Controls m)
    (fun t e ht he => ⟨inverterStep_safe strtof t e ht.1,
      (inverterStep_tmr strtof ht.1 he).trans ht.2⟩)
    evs s ⟨hs, rfl⟩ (allSteps_of_forall_mem _ evs s hevs)

/-- A period in which a phase keeps its compare value. -/
theorem Inverter.Safe.onTime_hold {s : Inverter} (hs : s.Safe) (strtof : List UInt8 → ℚ)
    (m : Motor) (p : PwmPhase) {mid : List InverterEvent} (hmid : ∀ e ∈ mid, ¬e.Controls m)
    (h : counts m mid = PWM_PERIOD) :
    (s.onTime strtof m p mid : ℤ) = 2 * (s.sys.tmr.of m).compare m p := by
  have hbounds := hs.compare m p
  obtain ⟨c, hc⟩ := Int.eq_ofNat_of_zero_le hbounds.1
  -- nothing changes the compare value in the period
  have hcmp := forall_compares strtof m p
    (I := fun t => t.Safe ∧ t.sys.tmr.of m = s.sys.tmr.of m)
    (C := fun e' => ¬e'.Controls m) (P := fun d => (c : ℤ) ≤ d ∧ d ≤ c)
    (fun t e' ht he' => ⟨inverterStep_safe strtof t e' ht.1,
      (inverterStep_tmr strtof ht.1 he').trans ht.2⟩)
    (fun t ht => by rw [ht.2, hc]; exact ⟨le_rfl, le_rfl⟩) mid s ⟨hs, rfl⟩ hmid
  have hcpr : c ≤ TMR_PR := by
    rw [hc] at hbounds
    have hpr : TMR_PR = 4999 := rfl
    omega
  obtain ⟨hlo, hhi⟩ := hs.onTime_bounds strtof m p hcpr h hcmp
  rw [hc]
  omega

/-- A run that ends with a control step of a motor, in its view. -/
theorem run_view_controls (strtof : List UInt8 → ℚ) (b : BootInputs) (i : Motor → ℕ)
    (pre : List InverterEvent) {m : Motor} {e : InverterEvent} (he : e.Controls m) :
    ∃ (v : MotorView) (ad : ADBuffer) (angle : ℚ), v.Safe m ∧
      (run (inverterStep strtof) (inverterBoot b i) (pre ++ [e])).sys.view m =
        v.control m ad angle := by
  have hpre := run_inverter_safe strtof b i pre
  rw [run_append]
  generalize run (inverterStep strtof) (inverterBoot b i) pre = s at hpre ⊢
  cases e with
  | count m' => exact he.elim
  | system e =>
    obtain ⟨ad, angle, ho⟩ := he
    exact ⟨s.sys.view m, ad, angle, hpre.views m, view_step_some strtof hpre.wired ho⟩

/-- **The outputs are those of the duties.**  In every period after a control step of a motor,
and before the next, each phase is high for its duty of 9000 counts, less than two counts
short. -/
theorem pwm_realises_duties (strtof : List UInt8 → ℚ) (b : BootInputs) (i : Motor → ℕ)
    (pre gap mid : List InverterEvent) (m : Motor) (p : PwmPhase) (e : InverterEvent)
    (he : e.Controls m) (hgap : ∀ e' ∈ gap, ¬e'.Controls m) (hmid : ∀ e' ∈ mid, ¬e'.Controls m)
    (h : counts m mid = PWM_PERIOD) :
    let s := run (inverterStep strtof) (inverterBoot b i) (pre ++ [e])
    let t := run (inverterStep strtof) s gap
    9000 * (s.sys.view m).sv.duty p - 2 < (t.onTime strtof m p mid : ℚ) ∧
      (t.onTime strtof m p mid : ℚ) ≤ 9000 * (s.sys.view m).sv.duty p := by
  intro s t
  have hs : s.Safe := run_inverter_safe strtof b i (pre ++ [e])
  obtain ⟨ht, htmr⟩ : t.Safe ∧ t.sys.tmr.of m = s.sys.tmr.of m := run_inverter_tmr strtof hs hgap
  -- the control step has stored the duties
  obtain ⟨v, ad, angle, hv, hview⟩ := run_view_controls strtof b i pre he
  have hstored : (s.sys.tmr.of m).compare m p = phaseCompare ((s.sys.view m).sv.duty p) := by
    rw [← view_tmr, hview]
    exact control_compare hv.wired ad angle p
  have hon := ht.onTime_hold strtof m p hmid h
  rw [htmr, hstored] at hon
  have hduty : 0 ≤ (s.sys.view m).sv.duty p := by
    obtain ⟨-, ha, hb, hcc⟩ := (hs.views m).duties
    cases p
    · exact ha.1
    · exact hb.1
    · exact hcc.1
  obtain ⟨h1, h2⟩ := phaseCompare_near hduty
  have hq : (t.onTime strtof m p mid : ℚ) = 2 * (phaseCompare ((s.sys.view m).sv.duty p) : ℚ) := by
    exact_mod_cast hon
  rw [hq]
  constructor <;> linarith

/-- Other events: a tick, a count of each timer, and a control step of motor 2. -/
def otherEvents : List InverterEvent :=
  [.count .M1, .system .tmr5, .count .M2, .system (.adc3 ⟨0, 0⟩ 0)]

theorem otherEvents_not_controls : ∀ e ∈ otherEvents, ¬e.Controls .M1 := by
  simp [otherEvents, InverterEvent.Controls, Event.forMotor]

/-- A period after the first control step, which finds a current. -/
theorem pwm_realises_duties_first :
    let s := run (inverterStep fun _ => 0)
      (inverterBoot (.const ⟨⟨0, 0⟩, ⟨0, 0⟩, 0, 0⟩) fun _ => 0)
      ([] ++ [.system (.adc1 ⟨4095, 0⟩ 0)])
    let t := run (inverterStep fun _ => 0) s otherEvents
    9000 * (s.sys.view .M1).sv.duty .A - 2 <
        (t.onTime (fun _ => 0) .M1 .A (List.replicate PWM_PERIOD (.count .M1)) : ℚ) ∧
      (t.onTime (fun _ => 0) .M1 .A (List.replicate PWM_PERIOD (.count .M1)) : ℚ) ≤
        9000 * (s.sys.view .M1).sv.duty .A :=
  pwm_realises_duties (fun _ => 0) (.const ⟨⟨0, 0⟩, ⟨0, 0⟩, 0, 0⟩) (fun _ => 0) [] otherEvents
    (List.replicate PWM_PERIOD (.count .M1)) .M1 .A (.system (.adc1 ⟨4095, 0⟩ 0)) ⟨_, _, rfl⟩
    otherEvents_not_controls (fun e he => by rw [List.eq_of_mem_replicate he]; exact id)
    (counts_replicate .M1 PWM_PERIOD)

end At32Foc
