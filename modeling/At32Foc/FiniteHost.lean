import At32Foc.HostPoison
import At32Foc.Parameters

/-!
# Finite host runs are runs over the rationals

The main loop and the controllers are read twice: over `XFloat`, where the host can send
infinities and `NaN`, and over the rationals, where the other results about them are proved.
`Host.map fin` embeds the second in the first.  A run over `XFloat` stays in the image as long
as every text stored in a float parameter converts to a finite number, no longer, and is then
the image of the same run over the rationals (`finite_host_iff`).
-/

namespace At32Foc

open ControlLib XFloat

/-! ## The embedding -/

section Map

variable {F G : Type} (f : F → G)

def PIStruct.map (pid : PIStruct F) : PIStruct G :=
  ⟨f pid.kp, f pid.ki, f pid.kd, f pid.pre, f pid.tar, f pid.bias, f pid.lastBias, f pid.out,
    f pid.outMax⟩

def PIDParams.map (pid : PIDParams F) : PIDParams G :=
  ⟨f pid.CurrentKP, f pid.CurrentKI, f pid.CurrentKD, f pid.Iq, f pid.Id, pid.CurrentSetFlag,
    f pid.SpeedKP, f pid.SpeedKI, f pid.SpeedKD, f pid.Speed, pid.SpeedSetFlag⟩

theorem Param.get_map (q : Param) (pid : PIDParams F) :
    q.get (pid.map f) = Sum.map f id (q.get pid) := by
  cases q <;> rfl

def FOCState.map (pFOC : FOCState F) : FOCState G where
  current := pFOC.current
  Ualpha := f pFOC.Ualpha
  Ubeta := f pFOC.Ubeta
  Ialpha := f pFOC.Ialpha
  Ibeta := f pFOC.Ibeta
  Ia := f pFOC.Ia
  Ib := f pFOC.Ib
  Ic := f pFOC.Ic
  Ua := f pFOC.Ua
  Ub := f pFOC.Ub
  Uc := f pFOC.Uc
  Uq := f pFOC.Uq
  Ud := f pFOC.Ud
  Iq := f pFOC.Iq
  Id := f pFOC.Id
  mechanicalAngle := f pFOC.mechanicalAngle
  elecAngle := f pFOC.elecAngle
  corrAngle := f pFOC.corrAngle
  zero := f pFOC.zero
  idPID := pFOC.idPID.map f
  iqPID := pFOC.iqPID.map f
  tariq := f pFOC.tariq
  tarid := f pFOC.tarid
  speedLastAngle := f pFOC.speedLastAngle
  speed := f pFOC.speed
  speedPID := pFOC.speedPID.map f
  tarSpeed := f pFOC.tarSpeed
  SetPWM := pFOC.SetPWM

def Host.map (h : Host F) : Host G :=
  ⟨h.Motor_1.map f, h.Motor_2.map f, h.pidParams1.map f, h.pidParams2.map f⟩

end Map

/-! ## The controllers -/

theorem clampOut_fin (outMax out : ℚ) :
    clampOut (fin outMax) (fin out) = fin (clampOut outMax out) := by
  simp only [clampOut, fabs_fin, fabs_rat, neg_fin, gt_iff_lt, fin_lt_fin]
  split_ifs <;> simp_all

theorem piControl_fin (pid : PIStruct ℚ) (pre tar : ℚ) :
    piControl (pid.map fin) (fin pre) (fin tar) = (piControl pid pre tar).map fin := by
  simp only [piControl, PIStruct.map, sub_fin, mul_fin, add_fin, clampOut_fin]

theorem control_fin (l : Loop) (pre : ℚ) (pFOC : FOCState ℚ) :
    l.control (l.measure (fin pre) (pFOC.map fin)) = (l.control (l.measure pre pFOC)).map fin := by
  cases l with
  | id =>
    have hp := piControl_fin pFOC.idPID pre pFOC.tarid
    simp only [Loop.control, Loop.measure, currentPIControlID, FOCState.map]
    rw [hp]
  | iq =>
    have hp := piControl_fin { pFOC.iqPID with tar := pFOC.tariq } pre pFOC.speedPID.out
    simp only [Loop.control, Loop.measure, currentPIControlIQ, FOCState.map]
    rw [← hp]
    rfl
  | speed =>
    have hp := piControl_fin pFOC.speedPID pre pFOC.tarSpeed
    simp only [Loop.control, Loop.measure, speedPIControl, FOCState.map]
    rw [hp]

/-! ## The main loop -/

theorem applyCurrent_fin (pFOC : FOCState ℚ) (pid : PIDParams ℚ) :
    applyCurrent (pFOC.map fin) (pid.map fin) =
      ((applyCurrent pFOC pid).1.map fin, (applyCurrent pFOC pid).2.map fin) := by
  unfold applyCurrent
  have hflag : (pid.map fin).CurrentSetFlag = pid.CurrentSetFlag := rfl
  by_cases h : pid.CurrentSetFlag = 0
  · rw [if_pos (hflag.trans h), if_pos h]
    rfl
  · rw [if_neg (hflag ▸ h), if_neg h]

theorem applySpeed_fin (pFOC : FOCState ℚ) (pid : PIDParams ℚ) :
    applySpeed (pFOC.map fin) (pid.map fin) =
      ((applySpeed pFOC pid).1.map fin, (applySpeed pFOC pid).2.map fin) := by
  unfold applySpeed
  have hflag : (pid.map fin).SpeedSetFlag = pid.SpeedSetFlag := rfl
  by_cases h : pid.SpeedSetFlag = 0
  · rw [if_pos (hflag.trans h), if_pos h]
    rfl
  · rw [if_neg (hflag ▸ h), if_neg h]

theorem mainApply_fin (h : Host ℚ) : mainApply (h.map fin) = (mainApply h).map fin := by
  simp only [mainApply, Host.map, applyCurrent_fin, applySpeed_fin]

/-- Every text the message stores in a float parameter is finite. -/
def FiniteText (msg : List UInt8) : Prop :=
  ∀ g q text, Routes msg g q text → ¬q.IsSet → IsFin (strtof text)

theorem setParam_fin {q : Param} {text : List UInt8} (h : ¬q.IsSet → IsFin (strtof text))
    (pid : PIDParams ℚ) :
    setParam strtof q.name text (pid.map fin) =
      (setParam finiteStrtof q.name text pid).map fin := by
  refine Param.ext_get fun r => ?_
  rw [get_setParam, r.get_map, r.get_map, get_setParam]
  split_ifs
  · unfold Param.convert
    split_ifs with hq
    · rfl
    · rw [finiteStrtof_eq (h hq)]
      rfl
  · rfl

theorem mainParse_fin {msg : List UInt8} (h : FiniteText msg) (s : Host ℚ) :
    mainParse strtof msg (s.map fin) = (mainParse finiteStrtof msg s).map fin := by
  unfold mainParse parseAndSetPid
  cases hp : parseName msg with
  | none => rfl
  | some c =>
    obtain ⟨g, name, text⟩ := c
    have hset : ∀ pid : PIDParams ℚ, setParam strtof name text (pid.map fin) =
        (setParam finiteStrtof name text pid).map fin := by
      intro pid
      by_cases hn : ∃ q : Param, name = q.name
      · obtain ⟨q, rfl⟩ := hn
        exact setParam_fin (h g q text (routes_iff.mpr hp)) pid
      · have hn' : ∀ q : Param, name ≠ q.name := fun q hq => hn ⟨q, hq⟩
        rw [setParam_of_unknown strtof hn', setParam_of_unknown finiteStrtof hn']
    cases g
    · simp only [Host.map, hset]
    · simp only [Host.map, hset]

/-! ## Runs -/

/-- The main loop and the controllers over the rationals. -/
def hostStepRat (h : Host ℚ) : HostEvent → Host ℚ
  | .parse msg => mainParse finiteStrtof msg h
  | .apply => mainApply h
  | .control m l pre => h.update m fun pFOC => l.control (l.measure pre pFOC)

def hostBootRat : Host ℚ := ⟨bootPID Motor_1, bootPID Motor_2, pidParamsInit, pidParamsInit⟩

/-- Every message of the run is finite. -/
def FiniteTexts (evs : List HostEvent) : Prop := ∀ msg, .parse msg ∈ evs → FiniteText msg

theorem hostStep_fin {e : HostEvent} (he : ∀ msg, e = .parse msg → FiniteText msg) (h : Host ℚ) :
    hostStep (h.map fin) e = (hostStepRat h e).map fin := by
  cases e with
  | parse msg => exact mainParse_fin (he msg rfl) h
  | apply => exact mainApply_fin h
  | control m l pre =>
    cases m
    · simp only [hostStep, hostStepRat, Host.update, Host.map, control_fin]
    · simp only [hostStep, hostStepRat, Host.update, Host.map, control_fin]

theorem hostBoot_fin : hostBoot = hostBootRat.map fin := rfl

/-- A run of finite messages is the image of the run over the rationals. -/
theorem run_fin {evs : List HostEvent} (h : FiniteTexts evs) :
    run hostStep hostBoot evs = (run hostStepRat hostBootRat evs).map fin := by
  induction evs using List.reverseRecOn with
  | nil => exact hostBoot_fin
  | append_singleton evs e ih =>
    rw [run_append, run_append, ih fun msg hmsg => h msg (List.mem_append_left _ hmsg)]
    exact hostStep_fin (fun msg hmsg => h msg (by simp [hmsg])) _

/-- A message that is not finite leaves the image at once: the text is stored. -/
theorem finiteText_of_fin {s : Host XFloat} {msg : List UInt8} {h : Host ℚ}
    (hs : mainParse strtof msg s = h.map fin) : FiniteText msg := by
  intro g q text hroutes hq
  have hget : q.get (paramsOf g (parseAndSetPid strtof msg s.pidParams1 s.pidParams2)) = _ :=
    parseAndSetPid_routed hroutes s.pidParams1 s.pidParams2 g q
  rw [if_pos ⟨rfl, rfl⟩, Param.convert, if_neg hq] at hget
  have hp : paramsOf g (parseAndSetPid strtof msg s.pidParams1 s.pidParams2) =
      (paramsOf g (h.pidParams1, h.pidParams2)).map fin := by
    have h1 := congrArg Host.pidParams1 hs
    have h2 := congrArg Host.pidParams2 hs
    cases g
    · exact h1
    · exact h2
  rw [hp] at hget
  rw [q.get_map] at hget
  cases hv : q.get (paramsOf g (h.pidParams1, h.pidParams2)) with
  | inl v =>
    rw [hv] at hget
    exact ⟨v, (Sum.inl.inj hget).symm⟩
  | inr v =>
    rw [hv] at hget
    cases hget

/-! ## Result -/

/-- **Finite runs.**  The state stays finite through the run exactly when every text stored in
a float parameter is finite; the run is then that of the rationals. -/
theorem finite_host_iff (evs : List HostEvent) :
    ((∀ pre, pre <+: evs → ∃ h : Host ℚ, run hostStep hostBoot pre = h.map fin) ↔
      ∀ msg, .parse msg ∈ evs → ∀ g q text, Routes msg g q text → ¬q.IsSet →
        IsFin (strtof text)) ∧
    ((∀ msg, .parse msg ∈ evs → ∀ g q text, Routes msg g q text → ¬q.IsSet →
        IsFin (strtof text)) →
      run hostStep hostBoot evs = (run hostStepRat hostBootRat evs).map fin) := by
  refine ⟨⟨fun hall msg hmsg => ?_, fun h pre hpre => ?_⟩, fun h => run_fin h⟩
  · obtain ⟨l, r, rfl⟩ := List.append_of_mem hmsg
    obtain ⟨h, hrun⟩ := hall (l ++ [.parse msg]) ⟨r, by simp⟩
    rw [run_append] at hrun
    exact finiteText_of_fin hrun
  · exact ⟨_, run_fin fun msg hmsg => h msg (hpre.subset hmsg)⟩

end At32Foc
