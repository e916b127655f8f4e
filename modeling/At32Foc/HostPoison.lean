import At32Foc.Lib.Run
import At32Foc.Main

/-!
# Special values from the host

The parser hands whatever `strtof` returns to the controllers, and C99 `strtof`
accepts `inf` and `nan`.  Over `XFloat` the clamp of a controller maps every number
into its limits, infinities included, but lets a `NaN` through, and a `NaN` output
is fed back for ever.  A call keeps the output bounded exactly when none of its
operations is invalid (`CallSound`), so

* in runs whose calls are all sound every output is bounded, and the next call is
  bounded exactly when it is sound;
* after any run at all, the next call is bounded exactly when it is sound and the
  output is not a `NaN`;
* once gains and target are finite again, the next call is bounded exactly when
  neither the output nor the remembered error is a `NaN`, and the remembered error
  is finite or `kp` is not zero

(`host_poison_iff`).
-/

namespace At32Foc

open ControlLib XFloat

/-! ## The host's side of the system -/

def Host.motor {F : Type} (m : Motor) (h : Host F) : FOCState F :=
  match m with
  | .M1 => h.Motor_1
  | .M2 => h.Motor_2

def Host.pidParams {F : Type} (m : Motor) (h : Host F) : PIDParams F :=
  match m with
  | .M1 => h.pidParams1
  | .M2 => h.pidParams2

def Host.update {F : Type} (m : Motor) (f : FOCState F → FOCState F) (h : Host F) : Host F :=
  match m with
  | .M1 => { h with Motor_1 := f h.Motor_1 }
  | .M2 => { h with Motor_2 := f h.Motor_2 }

inductive HostEvent where
  | parse (msg : List UInt8)
  | apply
  /-- A controller of a motor is called on a finite measurement. -/
  | control (m : Motor) (l : Loop) (pre : ℚ)

def hostStep (h : Host XFloat) : HostEvent → Host XFloat
  | .parse msg => mainParse strtof msg h
  | .apply => mainApply h
  | .control m l pre => h.update m fun pFOC => l.control (l.measure (fin pre) pFOC)

/-- The motors and the staged parameters after the settings of `main`. -/
def hostBoot : Host XFloat := ⟨bootPID Motor_1, bootPID Motor_2, pidParamsInit, pidParamsInit⟩

/-! ## One call -/

/-- A finite output within the limit. -/
def PIStruct.Bounded (pid : PIStruct XFloat) : Prop :=
  ∃ q M, pid.out = fin q ∧ pid.outMax = fin M ∧ |q| ≤ |M|

/-- No operation of a call is invalid: gains, error `e` and remembered error `l` are
numbers; `e` and `l` are not the same infinity; a zero gain meets no infinity and an
infinite gain no zero; and two infinite terms have the same sign. -/
structure CallSound (kp ki e l : XFloat) : Prop where
  numbers : IsNum kp ∧ IsNum ki ∧ IsNum e ∧ IsNum l
  apart : ∀ s, ¬ (e = inf s ∧ l = inf s)
  kpZero : kp = fin 0 → IsFin e ∧ IsFin l
  kpInf : IsInf kp → e ≠ l
  kiZero : ki = fin 0 → IsFin e
  kiInf : IsInf ki → e ≠ fin 0
  agree : IsInf kp ∨ IsInf e ∨ IsInf l → IsInf ki ∨ IsInf e →
    sgn kp * sgn (e - l) = sgn ki * sgn e

/-- The increment of a controller is a number exactly when the call is sound. -/
theorem increment_isNum_iff (kp ki e l : XFloat) :
    IsNum (kp * (e - l) + ki * e) ↔ CallSound kp ki e l := by
  rw [add_isNum_iff, addValid_iff, mul_isNum_iff, mul_isNum_iff]
  constructor
  · rintro ⟨hp, hi, hsgn⟩
    obtain ⟨he, hl, hap⟩ := (sub_isNum_iff e l).mp hp.2.1
    obtain ⟨dfin, dinf, dzero⟩ := sub_kind hp.2.1
    rw [(mul_kind hp).1, (mul_kind hi).1, (mul_kind hp).2, (mul_kind hi).2, dinf] at hsgn
    refine ⟨⟨hp.1, hi.1, he, hl⟩, hap, fun h => dfin.mp (hp.2.2.1 h), fun h heq => ?_,
      hi.2.2.1, fun h heq => ?_, hsgn⟩
    · exact h.not_isFin (hp.2.2.2 (dzero.mpr heq))
    · exact h.not_isFin (hi.2.2.2 heq)
  · rintro ⟨⟨hkp, hki, he, hl⟩, hap, hkp0, hkpi, hki0, hkii, hsgn⟩
    have hd : IsNum (e - l) := (sub_isNum_iff e l).mpr ⟨he, hl, hap⟩
    obtain ⟨dfin, dinf, dzero⟩ := sub_kind hd
    have hp : MulValid kp (e - l) := ⟨hkp, hd, fun h => dfin.mpr (hkp0 h),
      fun h => hkp.isFin_of_not_isInf fun hi => hkpi hi (dzero.mp h)⟩
    have hi : MulValid ki e := ⟨hki, he, hki0, fun h => hki.isFin_of_not_isInf fun hi => hkii hi h⟩
    refine ⟨hp, hi, ?_⟩
    rw [(mul_kind hp).1, (mul_kind hi).1, (mul_kind hp).2, (mul_kind hi).2, dinf]
    exact hsgn

/-- The clamp brings every number within the limit. -/
theorem clampOut_of_isNum (M : ℚ) {y : XFloat} (h : IsNum y) :
    ∃ q, clampOut (fin M) y = fin q ∧ |q| ≤ |M| := by
  have hM := abs_nonneg M
  cases y with
  | nan => exact absurd h not_isNum_nan
  | fin y =>
    refine ⟨clampSym M y, ?_, abs_clampSym_le M y⟩
    simp only [clampOut, clampSym, fabs_fin, neg_fin, gt_iff_lt, fin_lt_fin]
    split_ifs <;> simp_all
  | inf s =>
    cases s
    · exact ⟨|M|, by simp [clampOut, not_lt.mpr (neg_le_self hM)], (abs_abs M).le⟩
    · exact ⟨-|M|, by simp [clampOut], by rw [abs_neg, abs_abs]⟩

/-- Both comparisons of the clamp fail on a `NaN`. -/
theorem clampOut_nan (M : ℚ) : clampOut (fin M) nan = nan := by
  simp [clampOut]

/-- The output after a call: bounded if the call is sound, `NaN` if it is not. -/
theorem piControl_out {pid : PIStruct XFloat} {M : ℚ} (hM : pid.outMax = fin M)
    (ho : ¬ IsInf pid.out) (pre : ℚ) (tar : XFloat) :
    ((piControl pid (fin pre) tar).Bounded ↔
        IsNum pid.out ∧ CallSound pid.kp pid.ki (tar - fin pre) pid.lastBias) ∧
      ((piControl pid (fin pre) tar).Bounded ∨ (piControl pid (fin pre) tar).out = nan) := by
  have hout : (piControl pid (fin pre) tar).out = clampOut (fin M)
      (pid.out + (pid.kp * (tar - fin pre - pid.lastBias) + pid.ki * (tar - fin pre))) := by
    rw [← hM]; rfl
  have hmax : (piControl pid (fin pre) tar).outMax = fin M := hM
  rw [← increment_isNum_iff]
  generalize pid.kp * (tar - fin pre - pid.lastBias) + pid.ki * (tar - fin pre) = inc at hout ⊢
  have hsum : IsNum (pid.out + inc) ↔ IsNum pid.out ∧ IsNum inc := by
    rw [add_isNum_iff, addValid_iff]
    exact ⟨fun h => ⟨h.1, h.2.1⟩, fun h => ⟨h.1, h.2, fun hi => absurd hi ho⟩⟩
  rw [← hsum]
  by_cases h : IsNum (pid.out + inc)
  · obtain ⟨q, hq, hle⟩ := clampOut_of_isNum M h
    have hb : (piControl pid (fin pre) tar).Bounded := ⟨q, M, hout.trans hq, hmax, hle⟩
    exact ⟨iff_of_true hb h, Or.inl hb⟩
  · have hnan : (piControl pid (fin pre) tar).out = nan := by
      rw [hout, not_not.mp h, clampOut_nan]
    refine ⟨iff_of_false ?_ h, Or.inr hnan⟩
    rintro ⟨q, -, hq, -⟩
    rw [hnan] at hq
    cases hq

/-- With finite gains and a finite error, only the remembered error can spoil a call. -/
theorem callSound_of_finite {kp ki e l : XFloat} (hkp : IsFin kp) (hki : IsFin ki) (he : IsFin e) :
    CallSound kp ki e l ↔ IsNum l ∧ (IsFin l ∨ kp ≠ fin 0) := by
  obtain ⟨p, rfl⟩ := hkp
  obtain ⟨i, rfl⟩ := hki
  obtain ⟨b, rfl⟩ := he
  constructor
  · intro h
    refine ⟨h.numbers.2.2.2, ?_⟩
    by_cases hp : fin p = fin 0
    · exact Or.inl (h.kpZero hp).2
    · exact Or.inr hp
  · rintro ⟨hl, hor⟩
    refine ⟨⟨nofun, nofun, nofun, hl⟩, nofun, fun hp => ⟨⟨b, rfl⟩, ?_⟩, ?_, fun _ => ⟨b, rfl⟩,
      ?_, ?_⟩
    · exact hor.resolve_right fun h => h hp
    · simp
    · simp
    · simp

/-! ## Every step -/

/-- The limit each loop is given at boot and by every commit. -/
def Loop.limit : Loop → ℚ
  | .id => 6.0
  | .iq => 6.0
  | .speed => 40.0

/-- A controller's record after a commit: new gains, and the limit of its loop. -/
def PIStruct.tuned (l : Loop) (kp ki kd : XFloat) (pid : PIStruct XFloat) : PIStruct XFloat :=
  { pid with kp := kp, ki := ki, kd := kd, outMax := fin l.limit }

section Commit

variable (pFOC : FOCState XFloat) (pid : PIDParams XFloat) (l : Loop)

/-- The current blocks write the records of the two current loops. -/
theorem applyCurrent_pid : l.pid (applyCurrent pFOC pid).1 = l.pid pFOC ∨
    l ≠ .speed ∧ ∃ kp ki kd, l.pid (applyCurrent pFOC pid).1 = (l.pid pFOC).tuned l kp ki kd := by
  unfold applyCurrent
  split_ifs
  · cases l with
    | id => exact Or.inr ⟨nofun, _, _, _, rfl⟩
    | iq => exact Or.inr ⟨nofun, _, _, _, rfl⟩
    | speed => exact Or.inl rfl
  · exact Or.inl rfl

/-- The speed blocks write the record of the speed loop. -/
theorem applySpeed_pid : l.pid (applySpeed pFOC pid).1 = l.pid pFOC ∨
    l = .speed ∧ ∃ kp ki kd, l.pid (applySpeed pFOC pid).1 = (l.pid pFOC).tuned l kp ki kd := by
  unfold applySpeed
  split_ifs
  · cases l with
    | id => exact Or.inl rfl
    | iq => exact Or.inl rfl
    | speed => exact Or.inr ⟨rfl, _, _, _, rfl⟩
  · exact Or.inl rfl

end Commit

theorem mainApply_motor (h : Host XFloat) (m : Motor) :
    (mainApply h).motor m = (applySpeed (applyCurrent (h.motor m) (h.pidParams m)).1
      (applyCurrent (h.motor m) (h.pidParams m)).2).1 := by
  cases m <;> rfl

/-- A commit rewrites gains, and the limit with itself. -/
theorem mainApply_pid (h : Host XFloat) (m : Motor) (l : Loop) :
    l.pid ((mainApply h).motor m) = l.pid (h.motor m) ∨
      ∃ kp ki kd, l.pid ((mainApply h).motor m) = (l.pid (h.motor m)).tuned l kp ki kd := by
  rw [mainApply_motor]
  have hc := applyCurrent_pid (h.motor m) (h.pidParams m) l
  generalize applyCurrent (h.motor m) (h.pidParams m) = r at hc ⊢
  rcases applySpeed_pid r.1 r.2 l with hs | ⟨hl, hs⟩
  · rw [hs]
    exact hc.imp id And.right
  · rcases hc with hc | ⟨hne, -⟩
    · rw [hc] at hs
      exact Or.inr hs
    · exact absurd hl hne

theorem mainParse_motor (msg : List UInt8) (h : Host XFloat) (m : Motor) :
    (mainParse strtof msg h).motor m = h.motor m := by
  cases m <;> rfl

theorem Host.motor_update {F : Type} (m m' : Motor) (f : FOCState F → FOCState F) (h : Host F) :
    (h.update m f).motor m' = if m' = m then f (h.motor m') else h.motor m' := by
  cases m <;> cases m' <;> rfl

/-- A controller writes its own record only. -/
theorem Loop.pid_control_other {l l' : Loop} (hl : l' ≠ l) (pre : XFloat) (pFOC : FOCState XFloat) :
    l'.pid (l.control (l.measure pre pFOC)) = l'.pid pFOC := by
  cases l <;> cases l' <;> first | rfl | exact absurd rfl hl

/-- What holds of every controller record, if commits and admitted calls keep it, is kept by
every admitted step. -/
theorem hostStep_forall {P : Loop → PIStruct XFloat → Prop} {C : Host XFloat → HostEvent → Prop}
    (hcommit : ∀ l pid kp ki kd, P l pid → P l (pid.tuned l kp ki kd))
    (hcall : ∀ h m l pre, P l (l.pid (h.motor m)) → C h (.control m l pre) →
      P l (piControl (l.pid (h.motor m)) (fin pre) (l.target (h.motor m))))
    (h : Host XFloat) (e : HostEvent) (hP : ∀ m l, P l (l.pid (h.motor m))) (hC : C h e) :
    ∀ m l, P l (l.pid ((hostStep h e).motor m)) := by
  intro m l
  cases e with
  | parse msg =>
    rw [hostStep, mainParse_motor]
    exact hP m l
  | apply =>
    rcases mainApply_pid h m l with heq | ⟨kp, ki, kd, heq⟩
    · rw [hostStep, heq]
      exact hP m l
    · rw [hostStep, heq]
      exact hcommit l _ kp ki kd (hP m l)
  | control m' l' pre =>
    rw [hostStep, Host.motor_update]
    by_cases hm : m = m'
    · subst hm
      rw [if_pos rfl]
      by_cases hl : l = l'
      · subst hl
        rw [Loop.pid_control]
        exact hcall h m l pre (hP m l) hC
      · rw [Loop.pid_control_other hl]
        exact hP m l
    · rw [if_neg hm]
      exact hP m l

/-! ## Every run -/

/-- The limit is in place and the output is bounded or a `NaN`. -/
def PIStruct.Guarded (l : Loop) (pid : PIStruct XFloat) : Prop :=
  pid.outMax = fin l.limit ∧ (pid.Bounded ∨ pid.out = nan)

theorem PIStruct.Bounded.isFin {pid : PIStruct XFloat} (h : pid.Bounded) : IsFin pid.out := by
  obtain ⟨q, -, hq, -⟩ := h
  exact ⟨q, hq⟩

theorem PIStruct.Guarded.not_isInf {l : Loop} {pid : PIStruct XFloat} (h : pid.Guarded l) :
    ¬ IsInf pid.out := by
  intro hi
  rcases h.2 with hb | hn
  · exact hi.not_isFin hb.isFin
  · rw [hn] at hi
    exact not_isInf_nan hi

/-- With its limit in place, a bounded output stays one when a commit writes the limit. -/
theorem PIStruct.Guarded.commit {l : Loop} {pid : PIStruct XFloat} (h : pid.Guarded l)
    (kp ki kd : XFloat) :
    (pid.tuned l kp ki kd).Guarded l ∧ (pid.Bounded → (pid.tuned l kp ki kd).Bounded) := by
  have hb : pid.Bounded → (pid.tuned l kp ki kd).Bounded := by
    rintro ⟨q, M, hq, hM, hle⟩
    have hM' : M = l.limit := by
      rw [h.1] at hM
      exact (XFloat.fin.inj hM).symm
    exact ⟨q, M, hq, by rw [hM', PIStruct.tuned], hle⟩
  exact ⟨⟨rfl, h.2.imp hb id⟩, hb⟩

theorem hostBoot_bounded (m : Motor) (l : Loop) :
    (l.pid (hostBoot.motor m)).outMax = fin l.limit ∧ (l.pid (hostBoot.motor m)).Bounded := by
  have hM : (l.pid (hostBoot.motor m)).outMax = fin l.limit := by
    cases m <;> cases l <;> rfl
  have ho : (l.pid (hostBoot.motor m)).out = fin 0.0 := by
    cases m <;> cases l <;> rfl
  refine ⟨hM, 0.0, l.limit, ho, hM, ?_⟩
  norm_num

theorem run_guarded (evs : List HostEvent) (m : Motor) (l : Loop) :
    (l.pid ((run hostStep hostBoot evs).motor m)).Guarded l := by
  have hall := run_invariant
    (I := fun h => ∀ (m : Motor) (l : Loop), (l.pid (h.motor m)).Guarded l)
    (fun h e hP => hostStep_forall (P := fun l pid => pid.Guarded l) (C := fun _ _ => True)
      (fun l pid kp ki kd hg => (hg.commit kp ki kd).1)
      (fun h m l pre hg _ => ⟨hg.1, (piControl_out hg.1 hg.not_isInf pre _).2⟩) h e hP trivial)
    evs hostBoot (fun m l => ⟨(hostBoot_bounded m l).1, Or.inl (hostBoot_bounded m l).2⟩)
  exact hall m l

/-- A step whose call, if it is one, is sound. -/
def HostSound (h : Host XFloat) : HostEvent → Prop
  | .parse _ => True
  | .apply => True
  | .control m l pre =>
    CallSound (l.pid (h.motor m)).kp (l.pid (h.motor m)).ki (l.target (h.motor m) - fin pre)
      (l.pid (h.motor m)).lastBias

/-- In runs whose calls are all sound every output is bounded. -/
theorem run_bounded (evs : List HostEvent) (hs : AllSteps HostSound hostStep hostBoot evs)
    (m : Motor) (l : Loop) : (l.pid ((run hostStep hostBoot evs).motor m)).Bounded := by
  have hall := run_invariant_of
    (I := fun h => ∀ (m : Motor) (l : Loop),
      (l.pid (h.motor m)).Guarded l ∧ (l.pid (h.motor m)).Bounded)
    (C := HostSound)
    (fun h e hP hC => hostStep_forall (P := fun l pid => pid.Guarded l ∧ pid.Bounded)
      (C := HostSound)
      (fun l pid kp ki kd hg => ⟨(hg.1.commit kp ki kd).1, (hg.1.commit kp ki kd).2 hg.2⟩)
      (fun h m l pre hg hC => by
        have hb := (piControl_out hg.1.1 hg.1.not_isInf pre (l.target (h.motor m))).1.mpr
          ⟨by obtain ⟨q, hq⟩ := hg.2.isFin; rw [hq]; exact isNum_fin q, hC⟩
        exact ⟨⟨hg.1.1, Or.inl hb⟩, hb⟩) h e hP hC)
    evs hostBoot (fun m l => ⟨⟨(hostBoot_bounded m l).1, Or.inl (hostBoot_bounded m l).2⟩,
      (hostBoot_bounded m l).2⟩) hs
  exact (hall m l).2

/-! ## Result -/

theorem Host.motor_control {h : Host XFloat} (m : Motor) (l : Loop) (pre : ℚ) :
    l.pid ((hostStep h (.control m l pre)).motor m) =
      piControl (l.pid (h.motor m)) (fin pre) (l.target (h.motor m)) := by
  rw [hostStep, Host.motor_update, if_pos rfl, Loop.pid_control]

/-- **Host commands.**  After any run whose calls are all sound every output is bounded, and
the next call is bounded exactly when it is sound.  After any run at all, the next call is
bounded exactly when it is sound and the output is not `NaN`; if gains and target are finite,
that is when output and remembered error are not `NaN` and the remembered error is finite or
`kp` is not zero. -/
theorem host_poison_iff (evs : List HostEvent) (m : Motor) (l : Loop) (pre : ℚ) :
    let h := run hostStep hostBoot evs
    let pid := l.pid (h.motor m)
    let next := l.pid ((hostStep h (.control m l pre)).motor m)
    (AllSteps HostSound hostStep hostBoot evs →
      (∀ (m' : Motor) (l' : Loop), (l'.pid (h.motor m')).Bounded) ∧
        (next.Bounded ↔ HostSound h (.control m l pre))) ∧
    (next.Bounded ↔ IsNum pid.out ∧ HostSound h (.control m l pre)) ∧
    (IsFin pid.kp → IsFin pid.ki → IsFin (l.target (h.motor m)) →
      (next.Bounded ↔
        IsNum pid.out ∧ IsNum pid.lastBias ∧ (IsFin pid.lastBias ∨ pid.kp ≠ fin 0))) := by
  intro h pid next
  have hg : pid.Guarded l := run_guarded evs m l
  have hnext : next.Bounded ↔ IsNum pid.out ∧ HostSound h (.control m l pre) := by
    show (l.pid ((hostStep h (.control m l pre)).motor m)).Bounded ↔ _
    rw [Host.motor_control]
    exact (piControl_out hg.1 hg.not_isInf pre _).1
  refine ⟨fun hs => ⟨run_bounded evs hs, ?_⟩, hnext, fun hkp hki htar => ?_⟩
  · obtain ⟨q, hq⟩ := (run_bounded evs hs m l).isFin
    rw [hnext]
    exact and_iff_right (hq ▸ isNum_fin q)
  · have he : IsFin (l.target (h.motor m) - fin pre) := by
      obtain ⟨t, ht⟩ := htar
      rw [ht, sub_fin]
      exact isFin_fin _
    rw [hnext, HostSound, callSound_of_finite hkp hki he]

/-- An infinite gain, a call with it, and finite gains again. -/
def infiniteGain : List HostEvent :=
  [.parse (cstr "Current_KP_1:inf"), .apply, .parse (cstr "Current_SET_1:0"), .apply,
   .control .M1 .id 1, .parse (cstr "Current_KP_1:0.04"), .apply, .parse (cstr "Current_SET_1:0"),
   .apply]

/-- With an infinite gain `kp` a change of a finite error is sound. -/
theorem callSound_of_inf {neg : Bool} {k e l : ℚ} (h : e ≠ l) :
    CallSound (inf neg) (fin k) (fin e) (fin l) where
  numbers := ⟨nofun, nofun, nofun, nofun⟩
  apart := nofun
  kpZero := nofun
  kpInf _ heq := h (XFloat.fin.inj heq)
  kiZero _ := ⟨e, rfl⟩
  kiInf := by simp
  agree := by simp

theorem infiniteGain_sound : AllSteps HostSound hostStep hostBoot infiniteGain := by
  refine ⟨trivial, trivial, trivial, trivial, ?_, trivial, trivial, trivial, trivial, trivial⟩
  have h : let pid := (run hostStep hostBoot (infiniteGain.take 4)).Motor_1.idPID
      pid.kp = inf false ∧ pid.ki = fin 0.04 ∧
        (run hostStep hostBoot (infiniteGain.take 4)).Motor_1.tarid - fin 1 = fin (-1) ∧
        pid.lastBias = fin 0 := by
    decide +kernel
  obtain ⟨hkp, hki, he, hl⟩ := h
  have hsound : CallSound (inf false) (fin 0.04) (fin (-1)) (fin 0) :=
    callSound_of_inf (by norm_num)
  rw [← hkp, ← hki, ← he, ← hl] at hsound
  exact hsound

/-- The call with the infinite gain is sound and bounded, and so is the next one. -/
theorem host_poison_iff_recovery :
    let h := run hostStep hostBoot infiniteGain
    (∀ (m : Motor) (l : Loop), (l.pid (h.motor m)).Bounded) ∧
      (Loop.id.pid ((hostStep h (.control .M1 .id 1)).motor .M1)).Bounded := by
  obtain ⟨hsound, -, hfinite⟩ := host_poison_iff infiniteGain .M1 .id 1
  have h : let pid := (run hostStep hostBoot infiniteGain).Motor_1.idPID
      pid.kp = fin 0.04 ∧ pid.ki = fin 0.04 ∧ pid.lastBias = fin (-1) ∧ pid.out = fin (-6) ∧
        (run hostStep hostBoot infiniteGain).Motor_1.tarid = fin 0 := by
    decide +kernel
  obtain ⟨hkp, hki, hl, ho, htar⟩ := h
  refine ⟨(hsound infiniteGain_sound).1, ?_⟩
  refine (hfinite ⟨_, hkp⟩ ⟨_, hki⟩ ⟨_, htar⟩).mpr ⟨?_, ?_, .inl ⟨_, hl⟩⟩
  · exact ho ▸ isNum_fin _
  · exact hl ▸ isNum_fin _

/-- A `nan` gain makes the output `NaN`, and a finite gain afterwards does not bring it back. -/
theorem host_nan_poisons :
    let h := run hostStep hostBoot [.parse (cstr "Current_KP_1:nan"), .apply,
      .parse (cstr "Current_SET_1:0"), .apply, .control .M1 .id 1]
    let h' := run hostStep h [.parse (cstr "Current_KP_1:0.04"), .apply,
      .parse (cstr "Current_SET_1:0"), .apply, .control .M1 .id 1]
    h.Motor_1.idPID.out = nan ∧ h'.Motor_1.idPID.kp = fin 0.04 ∧
      h'.Motor_1.idPID.ki = fin 0.04 ∧ h'.Motor_1.tarid = fin 0 ∧ h'.Motor_1.idPID.out = nan := by
  decide +kernel

end At32Foc
