import At32Foc.ActuatorSafety
import At32Foc.Interrupts

/-!
# At every instant

The limits of both motors in every state of the core (`boardRun`), also inside a handler and
inside a commit of the main loop.

* `Drive.Safe`: what a control handler keeps at each of its stages.
* `safe_at_every_instant`: both motors are within their limits, and so is every compare
  register while the three phases are being written.
-/

namespace At32Foc

open ControlLib InterruptSystem

/-! ## Limits -/

/-- The part of `MotorView.Safe` that a control handler works on. -/
structure Drive.Safe (m : Motor) (d : Drive) : Prop where
  wired : WiredFor m d.pFOC
  commands : CommandsSafe d.pFOC
  Ts : d.PSVpwm.Ts = 1
  duties : d.PSVpwm.InPeriod
  tmr : (d.tmr.of m).Safe m

/-- One phase of a motor, through its PWM function. -/
theorem setPWM_safe {m : Motor} {pwm : ℚ} {tmr : Timers} (h0 : 0 ≤ pwm) (h1 : pwm ≤ 1)
    (h : (tmr.of m).Safe m) :
    ((setPWMA m.setPWM pwm tmr).of m).Safe m ∧ ((setPWMB m.setPWM pwm tmr).of m).Safe m ∧
      ((setPWMC m.setPWM pwm tmr).of m).Safe m := by
  have hp := phaseCompare_mem h0 h1
  obtain ⟨hphases, htrigger⟩ := h
  cases m <;>
    simp only [TmrType.phases, Timers.of, List.mem_cons, List.not_mem_nil, or_false,
      forall_eq_or_imp, forall_eq] at hphases <;>
    refine ⟨⟨?_, htrigger⟩, ⟨?_, htrigger⟩, ⟨?_, htrigger⟩⟩ <;>
    simp only [setPWMA, setPWMB, setPWMC, Motor.setPWM, TmrType.phases, Timers.of, List.mem_cons,
      List.not_mem_nil, or_false, forall_eq_or_imp, forall_eq] <;>
    tauto

theorem setPWM_other {m g : Motor} (hg : g ≠ m) (pwm : ℚ) (tmr : Timers) :
    (setPWMA m.setPWM pwm tmr).of g = tmr.of g ∧ (setPWMB m.setPWM pwm tmr).of g = tmr.of g ∧
      (setPWMC m.setPWM pwm tmr).of g = tmr.of g := by
  cases m <;> cases g <;> first | exact ⟨rfl, rfl, rfl⟩ | exact absurd rfl hg

/-- A stage keeps a motor's drive within its limits, and the other timer as it is. -/
theorem Stage.run_safe {m : Motor} {d : Drive} (h : d.Safe m) (hw : Inputs) (k : Stage) :
    (k.run hw d).Safe m ∧ ∀ g ≠ m, (k.run hw d).tmr.of g = d.tmr.of g := by
  obtain ⟨hwired, hcom, hTs, hdut, htmr⟩ := h
  have hd := hdut
  obtain ⟨-, ha, hb, hc⟩ := hd
  rw [hTs] at ha hb hc
  have hset := hwired.2
  cases k with
  | sampleA =>
    refine ⟨⟨?_, ?_, hTs, hdut, htmr⟩, fun g _ => rfl⟩ <;>
      simp only [Stage.run, At32Foc.sampleA] <;>
      split_ifs
    · exact ⟨hwired.1, hset⟩
    · exact ⟨hwired.1, hset⟩
    · exact hwired
    · exact ⟨hcom.idMax, hcom.iqMax, hcom.speedMax, hcom.Ud, hcom.Uq, hcom.speedOut⟩
    · exact ⟨hcom.idMax, hcom.iqMax, hcom.speedMax, hcom.Ud, hcom.Uq, hcom.speedOut⟩
    · exact hcom
  | sampleB =>
    refine ⟨⟨?_, ?_, hTs, hdut, htmr⟩, fun g _ => rfl⟩ <;>
      simp only [Stage.run, At32Foc.sampleB] <;>
      split_ifs
    · exact ⟨hwired.1, hset⟩
    · exact ⟨hwired.1, hset⟩
    · exact hwired
    · exact ⟨hcom.idMax, hcom.iqMax, hcom.speedMax, hcom.Ud, hcom.Uq, hcom.speedOut⟩
    · exact ⟨hcom.idMax, hcom.iqMax, hcom.speedMax, hcom.Ud, hcom.Uq, hcom.speedOut⟩
    · exact hcom
  | currents =>
    exact ⟨⟨⟨hwired.1, hset⟩, ⟨hcom.idMax, hcom.iqMax, hcom.speedMax, hcom.Ud, hcom.Uq,
      hcom.speedOut⟩, hTs, hdut, htmr⟩, fun g _ => rfl⟩
  | control =>
    exact ⟨⟨⟨hwired.1, hset⟩, focControl_safe hcom, hTs, hdut, htmr⟩, fun g _ => rfl⟩
  | svpwm =>
    exact ⟨⟨hwired, hcom, (svpwm_Ts _ _ _).trans hTs, svpwm_inPeriod hdut _ _, htmr⟩,
      fun g _ => rfl⟩
  | pwmA =>
    refine ⟨⟨hwired, hcom, hTs, hdut, ?_⟩, fun g hg => ?_⟩ <;> simp only [Stage.run, hset]
    · exact (setPWM_safe ha.1 ha.2 htmr).1
    · exact (setPWM_other hg _ _).1
  | pwmB =>
    refine ⟨⟨hwired, hcom, hTs, hdut, ?_⟩, fun g hg => ?_⟩ <;> simp only [Stage.run, hset]
    · exact (setPWM_safe hb.1 hb.2 htmr).2.1
    · exact (setPWM_other hg _ _).2.1
  | pwmC =>
    refine ⟨⟨hwired, hcom, hTs, hdut, ?_⟩, fun g hg => ?_⟩ <;> simp only [Stage.run, hset]
    · exact (setPWM_safe hc.1 hc.2 htmr).2.2
    · exact (setPWM_other hg _ _).2.2

/-- Both motors are within their limits. -/
def Sys.Safe (s : Sys) : Prop := ∀ m, (s.view m).Safe m

theorem Sys.Safe.drive {s : Sys} (h : s.Safe) (m : Motor) : (s.drive m).Safe m := by
  have hm := h m
  cases m <;> exact ⟨hm.wired, hm.commands, hm.Ts, hm.duties, hm.tmr⟩

theorem Sys.Safe.setDrive {s : Sys} (h : s.Safe) {m : Motor} {d : Drive} (hd : d.Safe m)
    (hother : ∀ g ≠ m, d.tmr.of g = s.tmr.of g) : (s.setDrive m d).Safe := by
  intro g
  have hg := h g
  by_cases hm : g = m
  · subst hm
    cases g <;> exact ⟨hd.wired, hd.commands, hd.Ts, hd.duties, hd.tmr⟩
  · have htmr : (d.tmr.of g).Safe g := by
      rw [hother g hm]
      cases g <;> exact hg.tmr
    cases m <;> cases g <;> first
      | exact absurd rfl hm
      | exact ⟨hg.wired, hg.commands, hg.Ts, hg.duties, htmr⟩

theorem angleStep_safe {s : Sys} (h : s.Safe) (m : Motor) (angle : ℚ) :
    (angleStep m angle s).Safe := by
  have hr : (s.readAngle m angle).Safe := by
    intro g
    have hg := h g
    cases m <;> cases g <;> exact hg
  have hd := hr.drive m
  have hsame := getCorrectedElectricalAngle_same (s.readAngle m angle).hw
    ((s.readAngle m angle).drive m).pFOC
  exact hr.setDrive ⟨hsame.wired hd.wired, hsame.commandsSafe hd.commands, hd.Ts, hd.duties, hd.tmr⟩
    fun g _ => by cases m <;> rfl

theorem sysStep_safe {s : Sys} (h : s.Safe) (m : Motor) (ad : ADBuffer) (k : Stage) :
    (k.sysStep m ad s).Safe := by
  have hr : (k.read m ad s).Safe := by
    intro g
    have hg := h g
    cases k <;> cases m <;> cases g <;> exact hg
  obtain ⟨hd, hother⟩ := Stage.run_safe (hr.drive m) (k.read m ad s).hw k
  refine hr.setDrive hd fun g hg => (hother g hg).trans ?_
  cases m <;> rfl

theorem Sys.Safe.setFoc {s : Sys} (h : s.Safe) {m : Motor} {p : FOCState ℚ} (hw : WiredFor m p)
    (hp : CommandsSafe p) : (s.setFoc m p).Safe := by
  intro g
  have hg := h g
  rw [view_setFoc]
  split_ifs with hm
  · subst hm
    exact ⟨hw, hp, hg.Ts, hg.duties, hg.tmr⟩
  · exact hg

theorem Sys.Safe.setParams {s : Sys} (h : s.Safe) (m : Motor) (pid : PIDParams ℚ) :
    (s.setParams m pid).Safe := by
  intro g
  have hg := h g
  rw [view_setParams]
  split_ifs
  · exact ⟨hg.wired, hg.commands, hg.Ts, hg.duties, hg.tmr⟩
  · exact hg

theorem calculateSpeed_safe {s : Sys} (h : s.Safe) (m : Motor) : (s.calculateSpeed m).Safe := by
  intro g
  have hg := h g
  have hc := hg.commands
  cases m <;> cases g <;> first
    | exact hg
    | exact ⟨hg.wired, ⟨hc.idMax, hc.iqMax, hc.speedMax, hc.Ud, hc.Uq, hc.speedOut⟩, hg.Ts,
        hg.duties, hg.tmr⟩

theorem speedPI_safe {s : Sys} (h : s.Safe) (m : Motor) : (s.speedPI m).Safe := by
  have hm := h m
  have hc := hm.commands
  have hs := piControl_abs_le (s.view m).foc.speedPID (s.view m).foc.speed (s.view m).foc.tarSpeed
  rw [hc.speedMax, Nat.abs_ofNat] at hs
  exact h.setFoc hm.wired ⟨hc.idMax, hc.iqMax, hc.speedMax, hc.Ud, hc.Uq, hs⟩

/-- A store of a commit writes a target, a gain, or the limit that is there. -/
theorem store_safe {c : Commit} {f : PIDParams ℚ → FOCState ℚ → FOCState ℚ} (hf : f ∈ c.stores)
    (pid : PIDParams ℚ) {p : FOCState ℚ} (h : CommandsSafe p) : CommandsSafe (f pid p) := by
  have h6 : (6.0 : ℚ) = 6 := by norm_num
  have h40 : (40.0 : ℚ) = 40 := by norm_num
  obtain ⟨h1, h2, h3, h4, h5, h7⟩ := h
  cases c <;> simp only [Commit.stores, List.mem_cons, List.not_mem_nil, or_false] at hf
  · rcases hf with rfl | rfl | rfl | rfl | rfl | rfl | rfl | rfl | rfl | rfl
    case inr.inr.inr.inr.inr.inl => exact ⟨h6, h2, h3, h4, h5, h7⟩
    case inr.inr.inr.inr.inr.inr.inr.inr.inr => exact ⟨h1, h6, h3, h4, h5, h7⟩
    all_goals exact ⟨h1, h2, h3, h4, h5, h7⟩
  · rcases hf with rfl | rfl | rfl | rfl | rfl
    case inr.inr.inr.inr => exact ⟨h1, h2, h40, h4, h5, h7⟩
    all_goals exact ⟨h1, h2, h3, h4, h5, h7⟩

theorem mainStep_safe {s : MainLoop} (strtof : List UInt8 → ℚ) (h : s.sys.Safe)
    (msg : Option (List UInt8)) : (mainStep strtof msg s).sys.Safe := by
  rw [mainStep]
  cases s.pc with
  | sampleSpeed => exact h
  | sampleOut => exact h
  | send => exact h
  | test c m =>
    dsimp only
    split_ifs <;> exact h
  | store c m k =>
    dsimp only
    have hm := h m
    cases hk : c.stores[k]? with
    | some f =>
      have hf : f ∈ c.stores := List.mem_of_getElem? hk
      exact h.setFoc (hm.wired.of_wiring (store_wiring hf _ _)) (store_safe hf _ hm.commands)
    | none => exact h.setParams m _
  | parse =>
    cases msg with
    | none => exact h
    | some text =>
      intro g
      have hg := h g
      have hv : ((step strtof s.sys (.parse text)).view g) = _ := view_mainParse strtof g s.sys text
      dsimp only [parsePhase]
      rw [hv]
      split_ifs
      · exact hg.parse strtof text
      · exact hg

/-! ## Every step of the core -/

theorem controlMicro_safe {b : Board} (h : b.main.sys.Safe) (m : Motor) (pc : ControlPc) :
    (controlMicro m pc b).1.main.sys.Safe := by
  cases pc with
  | flag =>
    rw [controlMicro]
    split_ifs <;> exact h
  | start =>
    simp only [controlMicro, Board.setCS_main]
    exact h
  | write => exact h
  | wait =>
    rw [controlMicro]
    split_ifs <;> exact h
  | angle angle => exact angleStep_safe h m angle
  | stage k => exact sysStep_safe h m _ k

theorem tickMicro_safe {b : Board} (h : b.main.sys.Safe) (pc : TickPc) :
    (tickMicro pc b).1.main.sys.Safe := by
  cases pc with
  | ledLoad =>
    rw [tickMicro]
    split_ifs <;> exact h
  | speed m => cases m <;> exact calculateSpeed_safe h _
  | speedPI m => cases m <;> exact speedPI_safe h _
  | _ => exact h

theorem micro_safe {b : Board} (h : b.main.sys.Safe) (i : IRQn) (l : i.Local) :
    (micro i l b).1.main.sys.Safe := by
  cases i with
  | dma1Adc m => exact controlMicro_safe h m l
  | tmr5Global => exact tickMicro_safe h l
  | dma1Spi m =>
    show (spiHandler m b).main.sys.Safe
    rw [spiHandler_main]
    exact h
  | dma1Channel7 =>
    show (dma1Channel7Handler b).main.sys.Safe
    unfold dma1Channel7Handler
    split <;> exact h
  | usbfsLCan1Rx0 =>
    show (usbfsLCan1Rx0Handler b).main.sys.Safe
    unfold usbfsLCan1Rx0Handler
    split <;> exact h
  | can1Se => exact h
  | usart1 =>
    show (usart1Handler b).main.sys.Safe
    unfold usart1Handler
    split <;> exact h

theorem board_step_safe (strtof : List UInt8 → ℚ) (c : Core IRQn IRQn.Local Board)
    (e : CoreEvent IRQn HardwareEvent) (h : c.shared.main.sys.Safe) :
    ((board strtof).step c e).shared.main.sys.Safe := by
  refine (board strtof).step_cases (P := fun c => c.shared.main.sys.Safe) e h (fun e => ?_)
    (fun _ _ _ => h) (fun _ => ?_) (fun i l rest b l' _ hb => ?_) (fun i l rest b _ hb => ?_)
  · show (hardware e c.shared).main.sys.Safe
    rw [hardware_main]
    exact h
  · show (mainThread strtof c.shared).main.sys.Safe
    rcases mainThread_main strtof c.shared with hm | ⟨msg, hm⟩ <;> rw [hm]
    · exact h
    · exact mainStep_safe strtof h msg
  · have hs := micro_safe h i l
    rwa [show micro i l c.shared = (b, some l') from hb] at hs
  · have hs := micro_safe h i l
    rwa [show micro i l c.shared = (b, none) from hb] at hs

/-- **Safety at every instant.**  After boot, in every state of the core, whatever handlers
are active and wherever they and the main loop have been interrupted, both motors' voltages,
current demands, duties and compare registers are within their limits. -/
theorem safe_at_every_instant (strtof : List UInt8 → ℚ) (p : PowerOn)
    (cevs : List (CoreEvent IRQn HardwareEvent)) (m : Motor) :
    let v := (boardRun strtof p cevs).shared.main.sys.view m
    |v.foc.Ud| ≤ 6 ∧ |v.foc.Uq| ≤ 6 ∧ |v.foc.speedPID.out| ≤ 40 ∧
      (∀ T ∈ [v.sv.Ta, v.sv.Tb, v.sv.Tc], 0 ≤ T ∧ T ≤ v.sv.Ts) ∧
      (∀ c ∈ v.tmr.phases m, 0 ≤ c ∧ c ≤ 4500) ∧ v.tmr.trigger m = 4500 := by
  intro v
  have hboot : (boot p.inputs).Safe := by
    intro g
    rw [view_boot]
    exact bootView_safe g _ _
  have hv : v.Safe m := run_invariant (I := fun c : Core IRQn IRQn.Local Board =>
    c.shared.main.sys.Safe) (board_step_safe strtof) cevs ⟨boardBoot p, [], []⟩ hboot m
  refine ⟨hv.commands.Ud, hv.commands.Uq, hv.commands.speedOut, ?_, hv.tmr.phases, hv.tmr.trigger⟩
  obtain ⟨-, ha, hb, hc⟩ := hv.duties
  simp only [List.mem_cons, List.not_mem_nil, or_false, forall_eq_or_imp, forall_eq]
  exact ⟨ha, hb, hc⟩

end At32Foc
