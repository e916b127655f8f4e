import At32Foc.Lib.ThreePhase
import At32Foc.CurrentOffset
import At32Foc.FastSinAccuracy
import At32Foc.MeasuredRange

/-!
# The measured currents are those of the rotor frame

What the current measurement is for: a motor whose phase currents are those of a vector in
the rotor frame shows that vector in `Id` and `Iq`.  The transforms of `FOC.c` are those of
`ControlLib.clarke` and `ControlLib.park` up to 12 mA over the whole range of the converter
(`rawCurrents_near`): 1.732 for the root of three, `fast_sin` and `fast_cos` for sine and
cosine, and 6.28318 for a turn.  From any state a run has reached, while the readings are
those of a vector up to `η`, the filtered currents approach the vector up to `2 * η + 0.012`
at the rate of the control steps (`currents_track`).
-/

namespace At32Foc

open ControlLib

/-! ## The angle -/

/-- The angle of the fraction of a turn that a number up to `_2PI` stands for. -/
noncomputable def turnAngle (angle : ℚ) : ℝ := (2 * (angle / _2PI) : ℚ) * Real.pi

section Angle

variable {x : ℚ} (h0 : 0 ≤ x) (h1 : x ≤ _2PI)

include h0 h1

theorem turnAngle_near : |(x : ℝ) - turnAngle x| ≤ 6e-6 := by
  have hlo := Real.pi_gt_d6
  have hhi := Real.pi_lt_d6
  have hx0 : (0 : ℝ) ≤ x := by exact_mod_cast h0
  have hx1 : (x : ℝ) ≤ 6.28318 := by
    have : ((x : ℚ) : ℝ) ≤ ((_2PI : ℚ) : ℝ) := by exact_mod_cast h1
    norm_num [_2PI] at this ⊢
    exact this
  have e : (x : ℝ) - turnAngle x = x * (1 - 2 * Real.pi / 6.28318) := by
    rw [turnAngle, _2PI]
    push_cast
    ring
  have hgap : |1 - 2 * Real.pi / 6.28318| ≤ 6e-6 / 6.28318 := by
    rw [abs_le]
    constructor <;> norm_num <;> linarith
  rw [e, abs_mul, abs_of_nonneg hx0]
  calc (x : ℝ) * |1 - 2 * Real.pi / 6.28318|
      ≤ 6.28318 * (6e-6 / 6.28318) := mul_le_mul hx1 hgap (abs_nonneg _) (by norm_num)
    _ = 6e-6 := by norm_num

/-- A function that moves no faster than its argument, at the reduced and at the true angle. -/
theorem fastReduce_turnAngle {f : ℝ → ℝ} (hf : LipschitzWith 1 f)
    (hturn : ∀ a, f (a - 2 * Real.pi) = f a) : |f (fastReduce x) - f (turnAngle x)| ≤ 6.2e-6 := by
  have hdist := hf.dist_le_mul (x : ℝ) (turnAngle x)
  rw [NNReal.coe_one, one_mul, Real.dist_eq, Real.dist_eq] at hdist
  calc |f (fastReduce x) - f (turnAngle x)|
      ≤ |f (fastReduce x) - f x| + |f x - f (turnAngle x)| := abs_sub_le _ _ _
    _ ≤ 1.1e-7 + 6e-6 :=
      add_le_add (fastReduce_near h0 h1 hf hturn) (hdist.trans (turnAngle_near h0 h1))
    _ ≤ 6.2e-6 := by norm_num

theorem fastSin_turnAngle : |(fastSin x : ℝ) - Real.sin (turnAngle x)| ≤ 7e-6 := by
  calc |(fastSin x : ℝ) - Real.sin (turnAngle x)|
      ≤ |(fastSin x : ℝ) - Real.sin (fastReduce x)| +
          |Real.sin (fastReduce x) - Real.sin (turnAngle x)| := abs_sub_le _ _ _
    _ ≤ 8e-7 + 6.2e-6 := add_le_add (fastSin_reduced h0 h1)
        (fastReduce_turnAngle h0 h1 Real.lipschitzWith_sin Real.sin_sub_two_pi)
    _ ≤ 7e-6 := by norm_num

theorem fastCos_turnAngle : |(fastCos x : ℝ) - Real.cos (turnAngle x)| ≤ 7e-6 := by
  calc |(fastCos x : ℝ) - Real.cos (turnAngle x)|
      ≤ |(fastCos x : ℝ) - Real.cos (fastReduce x)| +
          |Real.cos (fastReduce x) - Real.cos (turnAngle x)| := abs_sub_le _ _ _
    _ ≤ 8e-7 + 6.2e-6 := add_le_add (fastCos_reduced h0 h1)
        (fastReduce_turnAngle h0 h1 Real.lipschitzWith_cos Real.cos_sub_two_pi)
    _ ≤ 7e-6 := by norm_num

end Angle

/-! ## One measurement -/

/-- The currents `clarke_transform` leaves in `Ia` and `Ib`. -/
def phaseReadings (ad : ADBuffer) (offset : UInt16) : ℚ × ℚ :=
  (-phaseCurrent ad.ad1 offset, -phaseCurrent ad.ad0 offset)

/-- A component in the rotor frame, with the errors of its parts. -/
theorem component_near {x y y' s s' c c' : ℝ} (hx : |x| ≤ 165) (hy : |y'| ≤ 286)
    (hyy : |y - y'| ≤ 0.0085) (hs : |s| ≤ 1 + 1e-6) (hss : |s - s'| ≤ 7e-6)
    (hcc : |c - c'| ≤ 7e-6) : |(x * c + y * s) - (x * c' + y' * s')| ≤ 0.012 := by
  have e : (x * c + y * s) - (x * c' + y' * s') =
      x * (c - c') + (y - y') * s + y' * (s - s') := by ring
  rw [e]
  calc |x * (c - c') + (y - y') * s + y' * (s - s')|
      ≤ |x * (c - c')| + |(y - y') * s| + |y' * (s - s')| := abs_add_three _ _ _
    _ = |x| * |c - c'| + |y - y'| * |s| + |y'| * |s - s'| := by rw [abs_mul, abs_mul, abs_mul]
    _ ≤ 165 * 7e-6 + 0.0085 * (1 + 1e-6) + 286 * 7e-6 := by gcongr
    _ ≤ 0.012 := by norm_num

/-- 1.732 for the root of three. -/
theorem clarke_near (i : ℝ × ℝ) (h1 : |i.1| ≤ 165) (h2 : |i.2| ≤ 165) :
    |(i.1 + 2 * i.2) / 1.732 - (clarke i).2| ≤ 0.0085 ∧ |(clarke i).2| ≤ 286 := by
  have hlo : (1.732 : ℝ) ≤ √3 := Real.le_sqrt_of_sq_le (by norm_num)
  have hhi : √3 ≤ (1.732051 : ℝ) := Real.sqrt_le_iff.mpr ⟨by norm_num, by norm_num⟩
  have hpos : (0 : ℝ) < √3 := by linarith
  have hsum : |i.1 + 2 * i.2| ≤ 495 := by
    rw [abs_le] at h1 h2 ⊢
    constructor <;> linarith
  have hle : |(clarke i).2| ≤ 495 / 1.732 := by
    rw [clarke_eq, abs_div, abs_of_pos hpos]
    exact div_le_div₀ (by norm_num) hsum (by norm_num) hlo
  refine ⟨?_, hle.trans (by norm_num)⟩
  have e : (i.1 + 2 * i.2) / 1.732 - (clarke i).2 = (clarke i).2 * ((√3 - 1.732) / 1.732) := by
    rw [clarke_eq]
    field_simp
  have hgap : |(√3 - 1.732) / 1.732| ≤ 0.000051 / 1.732 := by
    rw [abs_of_nonneg (div_nonneg (by linarith) (by norm_num))]
    exact div_le_div_of_nonneg_right (by linarith) (by norm_num)
  rw [e, abs_mul]
  calc |(clarke i).2| * |(√3 - 1.732) / 1.732|
      ≤ 495 / 1.732 * (0.000051 / 1.732) :=
        mul_le_mul hle hgap (abs_nonneg _) (by norm_num)
    _ ≤ 0.0085 := by norm_num

/-- What the transforms make of the readings, and what they stand for. -/
theorem rawCurrents_near {pFOC : FOCState ℚ} (h : pFOC.current.TwelveBit)
    (hθ : OnTurn pFOC.corrAngle) {i : ℚ × ℚ}
    (hi : i = phaseReadings ⟨pFOC.current.adB, pFOC.current.adA⟩ pFOC.current.voltageAOffset) :
    let I := park (turnAngle pFOC.corrAngle) (clarke (i.1, i.2))
    |((rawCurrents pFOC).Id : ℝ) - I.1| ≤ 0.012 ∧ |((rawCurrents pFOC).Iq : ℝ) - I.2| ≤ 0.012 := by
  intro I
  have real_le {x : ℚ} {y : ℚ} (h : |x| ≤ y) : |(x : ℝ)| ≤ (y : ℝ) := by exact_mod_cast h
  have hA : |i.1| ≤ 165 := by
    rw [hi, phaseReadings, abs_neg]
    exact phaseCurrent_abs_le h.adA h.voltageAOffset
  have hB : |i.2| ≤ 165 := by
    rw [hi, phaseReadings, abs_neg]
    exact phaseCurrent_abs_le h.adB h.voltageAOffset
  have hA' := real_le hA
  have hB' := real_le hB
  push_cast at hA' hB'
  have hs1 := real_le (fastSin_abs_le hθ.1 hθ.2.le)
  have hc1 := real_le (fastCos_abs_le hθ.1 hθ.2.le)
  push_cast at hs1 hc1
  have hs := fastSin_turnAngle hθ.1 hθ.2.le
  have hc := fastCos_turnAngle hθ.1 hθ.2.le
  obtain ⟨hgap, hbeta⟩ := clarke_near ((i.1 : ℝ), (i.2 : ℝ)) hA' hB'
  have eId : (rawCurrents pFOC).Id = i.1 * fastCos pFOC.corrAngle +
      (i.1 + 2 * i.2) / SQRT3 * fastSin pFOC.corrAngle := by
    rw [hi]
    rfl
  have eIq : (rawCurrents pFOC).Iq = -i.1 * fastSin pFOC.corrAngle +
      (i.1 + 2 * i.2) / SQRT3 * fastCos pFOC.corrAngle := by
    rw [hi]
    rfl
  have h3 : ((SQRT3 : ℚ) : ℝ) = 1.732 := by norm_num [SQRT3]
  rw [eId, eIq]
  push_cast
  rw [h3]
  constructor
  · exact component_near hA' hbeta hgap hs1 hs hc
  · exact component_near (by rwa [abs_neg]) hbeta hgap hc1 hc hs

/-! ## A control step -/

/-- The electrical angle a control step works with. -/
def stepAngle (zero angle : ℚ) : ℚ := correctedAngle (angleLimit (angle * POLE_PAIRS)) zero

/-- The record that `focCurrents` finds. -/
theorem sampled_eq {m : Motor} {pFOC : FOCState ℚ} (h : pFOC.current.Mflag = m.flag)
    (ad : ADBuffer) (angle : ℚ) :
    let p := sampleAD (.both ad angle) (getCorrectedElectricalAngle (.both ad angle) pFOC)
    p.current = { pFOC.current with adA := ad.ad1, adB := ad.ad0 } ∧
      p.corrAngle = stepAngle pFOC.zero angle := by
  intro p
  have hq : (getCorrectedElectricalAngle (.both ad angle) pFOC).current = pFOC.current ∧
      (getCorrectedElectricalAngle (.both ad angle) pFOC).corrAngle =
        stepAngle pFOC.zero angle := by
    rw [getCorrectedElectricalAngle, electricalAngle_eq _ h, Inputs.angle_both]
    exact ⟨rfl, rfl⟩
  have hp : p = sampleAD (.both ad angle) (getCorrectedElectricalAngle (.both ad angle) pFOC) := rfl
  generalize getCorrectedElectricalAngle (.both ad angle) pFOC = q at hq hp
  rw [hp, sampleAD_eq (m := m) _ (by rw [hq.1, h]), Inputs.ad_both, hq.1]
  exact ⟨rfl, hq.2⟩

/-- The filters of a control step, on currents that are those of the readings. -/
theorem control_filters {m : Motor} {v : MotorView} (hs : v.Safe m) (h : v.Ranged) {ad : ADBuffer}
    (had : ad.TwelveBit) (angle : ℚ) :
    let r := v.control m ad angle
    let i := phaseReadings ad v.foc.current.voltageAOffset
    let I := park (turnAngle (stepAngle v.foc.zero angle)) (clarke (i.1, i.2))
    ∃ raw : ℚ × ℚ, |(raw.1 : ℝ) - I.1| ≤ 0.012 ∧ |(raw.2 : ℝ) - I.2| ≤ 0.012 ∧
      r.foc.Id = lowPass lpfAlpha v.foc.Id raw.1 ∧ r.foc.Iq = lowPass lpfAlpha v.foc.Iq raw.2 := by
  intro r i I
  obtain ⟨hcur, hcorr⟩ := sampled_eq (m := m) hs.wired.1 ad angle
  have hId : r.foc.Id = (focMeasure (.both ad angle) v.foc v.lpf).1.Id := rfl
  have hIq : r.foc.Iq = (focMeasure (.both ad angle) v.foc v.lpf).1.Iq := rfl
  rw [focMeasure] at hId hIq
  generalize sampleAD (.both ad angle)
    (getCorrectedElectricalAngle (.both ad angle) v.foc) = p at hcur hcorr hId hIq
  obtain ⟨hlpf, hd, hq⟩ := focCurrents_filters p v.lpf
  have htwelve : p.current.TwelveBit := by
    rw [hcur]
    exact ⟨had.2, had.1, h.record.voltageAOffset⟩
  have hθ : OnTurn p.corrAngle := by
    rw [hcorr]
    exact correctedAngle_mem _ _
  obtain ⟨hnear1, hnear2⟩ := rawCurrents_near (i := i) htwelve hθ (by rw [hcur])
  rw [hcorr] at hnear1 hnear2
  refine ⟨((rawCurrents p).Id, (rawCurrents p).Iq), hnear1, hnear2, ?_, ?_⟩
  · rw [hId, hd, hlpf, lpf_filters_Id.out v.lpf _ h.filter.tuned, h.filtered.1]
  · rw [hIq, hq, hlpf, lpf_filters_Iq.out v.lpf _ h.filter.tuned, h.filtered.2]

/-! ## The system -/

def Event.isControl (m : Motor) (e : Event) : Bool :=
  match e.forMotor m with
  | some (.control _ _) => true
  | _ => false

/-- A control step finds the phase currents of the vector `I`, up to `η`. -/
def Shows (m : Motor) (I : ℝ × ℝ) (η : ℝ) (s : Sys) (e : Event) : Prop :=
  ∀ ad angle, e.forMotor m = some (.control ad angle) →
    let foc := (s.view m).foc
    let i := phaseReadings ad foc.current.voltageAOffset
    let i' := phases (parkInv (turnAngle (stepAngle foc.zero angle)) I)
    |(i.1 : ℝ) - i'.1| ≤ η ∧ |(i.2 : ℝ) - i'.2| ≤ η

section System

variable (strtof : List UInt8 → ℚ) {m : Motor} {s : Sys} {e : Event}

/-- What the control step adds to the filters is near the vector. -/
theorem step_control (h : s.Ranged m) (he : e.Physical) {I : ℝ × ℝ} {η : ℝ}
    (hI : Shows m I η s e) (hc : e.isControl m = true) :
    ∃ raw : ℚ × ℚ, |(raw.1 : ℝ) - I.1| ≤ 2 * η + 0.012 ∧ |(raw.2 : ℝ) - I.2| ≤ 2 * η + 0.012 ∧
      ((step strtof s e).view m).foc.Id = lowPass lpfAlpha (s.view m).foc.Id raw.1 ∧
      ((step strtof s e).view m).foc.Iq = lowPass lpfAlpha (s.view m).foc.Iq raw.2 := by
  obtain ⟨ad, angle, ho⟩ : ∃ ad angle, e.forMotor m = some (.control ad angle) := by
    unfold Event.isControl at hc
    split at hc
    · exact ⟨_, _, by assumption⟩
    · cases hc
  obtain ⟨h1, h2⟩ := hI ad angle ho
  set i := phaseReadings ad (s.view m).foc.current.voltageAOffset with hi
  set θ := turnAngle (stepAngle (s.view m).foc.zero angle) with hθ
  obtain ⟨hnear1, hnear2⟩ := park_clarke_near θ (i := ((i.1 : ℝ), (i.2 : ℝ))) h1 h2
  rw [park_clarke_phases] at hnear1 hnear2
  obtain ⟨raw, hraw1, hraw2, hd, hq⟩ :=
    control_filters h.safe h.view (he.forMotor ho).1 angle
  rw [view_step_some strtof h.wired ho]
  refine ⟨raw, ?_, ?_, hd, hq⟩
  · calc |(raw.1 : ℝ) - I.1| ≤ _ := abs_sub_le _ _ _
      _ ≤ 0.012 + 2 * η := add_le_add hraw1 hnear1
      _ = 2 * η + 0.012 := add_comm _ _
  · calc |(raw.2 : ℝ) - I.2| ≤ _ := abs_sub_le _ _ _
      _ ≤ 0.012 + 2 * η := add_le_add hraw2 hnear2
      _ = 2 * η + 0.012 := add_comm _ _

/-- The other events leave the measured currents alone. -/
theorem step_not_control (hs : Wired s) (hc : e.isControl m = false) :
    ((step strtof s e).view m).foc.Id = (s.view m).foc.Id ∧
      ((step strtof s e).view m).foc.Iq = (s.view m).foc.Iq := by
  cases ho : e.forMotor m with
  | none => rw [view_step_none strtof hs ho]; exact ⟨rfl, rfl⟩
  | some o =>
    rw [view_step_some strtof hs ho]
    cases o with
    | control ad angle =>
      rw [Event.isControl, ho] at hc
      cases hc
    | tick => exact ⟨rfl, rfl⟩
    | apply => exact apply_currents _
    | parse msg =>
      rw [motorStep, MotorView.parse]
      split <;> exact ⟨rfl, rfl⟩

/-- The filter coefficient as a real number. -/
theorem lpfAlpha_real : 0 ≤ ((lpfAlpha : ℚ) : ℝ) ∧ ((lpfAlpha : ℚ) : ℝ) ≤ 1 := by
  have h := lpfAlpha_mem
  exact ⟨by exact_mod_cast h.1, by exact_mod_cast h.2⟩

theorem lowPass_cast (α s x : ℚ) : ((lowPass α s x : ℚ) : ℝ) = lowPass (α : ℝ) s x := by
  rw [lowPass, lowPass]
  push_cast
  rfl

/-- A component `o` that every control step filters towards `c`, up to `w`. -/
theorem run_component_tracks (o : FOCState ℚ → ℚ) {c w : ℝ} (hw : 0 ≤ w)
    {C : Sys → Event → Prop} (hC : ∀ t e, C t e → e.Physical)
    (hcontrol : ∀ t e, t.Ranged m → C t e → e.isControl m = true → ∃ x : ℚ, |(x : ℝ) - c| ≤ w ∧
      o ((step strtof t e).view m).foc = lowPass lpfAlpha (o (t.view m).foc) x)
    (hother : ∀ t e, Wired t → e.isControl m = false →
      o ((step strtof t e).view m).foc = o (t.view m).foc)
    (hs : s.Ranged m) {evs : List Event} (hevs : AllSteps C (step strtof) s evs) :
    |(o ((run (step strtof) s evs).view m).foc : ℝ) - c| ≤
      (1 - lpfAlpha) ^ (evs.countP fun e => e.isControl m) * |(o (s.view m).foc : ℝ) - c| + w := by
  refine run_tracks_near (I := Sys.Ranged m) (o := fun t => ((o (t.view m).foc : ℚ) : ℝ))
    lpfAlpha_real hw (fun e => e.isControl m)
    (fun t e ht he => step_ranged strtof m t e ht (hC t e he)) ?_ ?_ evs s hs hevs
  · rintro t e ht he hc
    obtain ⟨x, hnear, hout⟩ := hcontrol t e ht he hc
    exact ⟨x, hnear, by rw [hout]; exact lowPass_cast _ _ _⟩
  · rintro t e ht - hc
    rw [hother t e ht.wired hc]

end System

/-! ## Result -/

/-- **The measured currents are those of the rotor frame.**  After a boot and a run on physical
readings, while every control step of a motor finds the phase currents of `I` up to `η`: what
is left of the distances of `Id` and `Iq` from `I` shrinks with every control step to the
error of the readings and of the transforms, whatever the host sends and whatever other
interrupts come. -/
theorem currents_track (strtof : List UInt8 → ℚ) {b : BootInputs} (hb : b.Physical)
    {pre : List Event} (hpre : ∀ e ∈ pre, e.Physical) (m : Motor) (I : ℝ × ℝ) {η : ℝ} (hη : 0 ≤ η)
    (evs : List Event) :
    let s := run (step strtof) (boot b) pre
    AllSteps (fun t e => e.Physical ∧ Shows m I η t e) (step strtof) s evs →
      let foc := (s.view m).foc
      let foc' := ((run (step strtof) s evs).view m).foc
      let r : ℝ := (1 - lpfAlpha) ^ evs.countP fun e => e.isControl m
      |foc'.Id - I.1| ≤ r * |foc.Id - I.1| + (2 * η + 0.012) ∧
        |foc'.Iq - I.2| ≤ r * |foc.Iq - I.2| + (2 * η + 0.012) := by
  intro s hevs foc foc' r
  have hs : s.Ranged m := run_ranged strtof hb hpre m
  have hw : 0 ≤ 2 * η + 0.012 := by positivity
  constructor
  · refine run_component_tracks strtof (fun foc => foc.Id) hw (fun t e h => h.1) ?_ ?_ hs hevs
    · rintro t e ht ⟨hp, hI⟩ hc
      obtain ⟨raw, hnear, -, hout, -⟩ := step_control strtof ht hp hI hc
      exact ⟨raw.1, hnear, hout⟩
    · exact fun t e ht hc => (step_not_control strtof ht hc).1
  · refine run_component_tracks strtof (fun foc => foc.Iq) hw (fun t e h => h.1) ?_ ?_ hs hevs
    · rintro t e ht ⟨hp, hI⟩ hc
      obtain ⟨raw, -, hnear, -, hout⟩ := step_control strtof ht hp hI hc
      exact ⟨raw.2, hnear, hout⟩
    · exact fun t e ht hc => (step_not_control strtof ht hc).2

/-- Both phases read 2000 at rest; then they show a vector along `d`, at the angle 0, half a
turn on and at 0 again. -/
def vectorBoot : BootInputs := .const ⟨⟨2000, 2000⟩, ⟨2000, 2000⟩, 0, 0⟩

def vectorEvents : List Event :=
  [.adc1 ⟨2100, 1800⟩ 0, .tmr5, .adc1 ⟨1900, 2200⟩ (_2PI / 22), .adc1 ⟨2100, 1800⟩ 0]

/-- Its length. -/
def vectorCurrent : ℚ := phaseCurrent 2200 2000

theorem vectorBoot_physical : vectorBoot.Physical :=
  have h : (2000 : UInt16).toNat ≤ 4095 := by decide
  ⟨fun m _ _ => by cases m <;> exact ⟨h, h⟩,
    fun m _ _ => by cases m <;> exact ⟨le_rfl, _2PI_pos⟩⟩

theorem vectorEvents_physical {e : Event} (he : e ∈ vectorEvents) : e.Physical := by
  simp only [vectorEvents, List.mem_cons, List.not_mem_nil, or_false] at he
  have hhalf : OnTurn (_2PI / 22) := ⟨by norm_num [_2PI], by norm_num [_2PI]⟩
  rcases he with rfl | rfl | rfl | rfl
  · exact ⟨⟨by decide, by decide⟩, le_rfl, _2PI_pos⟩
  · trivial
  · exact ⟨⟨by decide, by decide⟩, hhalf⟩
  · exact ⟨⟨by decide, by decide⟩, le_rfl, _2PI_pos⟩

theorem vectorEvents_shows {s : Sys} {e : Event} (he : e ∈ vectorEvents)
    (h : (s.view .M1).foc.current.voltageAOffset = 2000 ∧ (s.view .M1).foc.zero = 0) :
    Shows .M1 (vectorCurrent, 0) 0 s e := by
  have hθ0 : turnAngle (stepAngle 0 0) = 0 := by
    have hstep : stepAngle 0 0 = 0 := by decide +kernel
    rw [turnAngle, hstep]
    norm_num
  have hθ1 : turnAngle (stepAngle 0 (_2PI / 22)) = Real.pi := by
    have hstep : stepAngle 0 (_2PI / 22) = _2PI / 2 := by decide +kernel
    rw [turnAngle, hstep]
    norm_num [_2PI]
  have hi0 : phaseReadings ⟨2100, 1800⟩ 2000 = (vectorCurrent, -vectorCurrent / 2) := by
    decide +kernel
  have hi1 : phaseReadings ⟨1900, 2200⟩ 2000 = (-vectorCurrent, vectorCurrent / 2) := by
    decide +kernel
  simp only [vectorEvents, List.mem_cons, List.not_mem_nil, or_false] at he
  rintro ad angle ho
  simp only [h.1, h.2]
  rcases he with rfl | rfl | rfl | rfl <;> cases ho
  · rw [hθ0, hi0]
    simp [phases_eq, parkInv, rotate]
  · rw [hθ1, hi1]
    simp [phases_eq, parkInv, rotate]
  · rw [hθ0, hi0]
    simp [phases_eq, parkInv, rotate]

/-- The readings of `vectorEvents`, with a tick of the speed loop between them. -/
theorem currents_track_vector :
    let s := run (step fun _ => 0) (boot vectorBoot) [.tmr5]
    let foc := (s.view .M1).foc
    let foc' := ((run (step fun _ => 0) s vectorEvents).view .M1).foc
    let r : ℝ := (1 - lpfAlpha) ^ vectorEvents.countP fun e => e.isControl .M1
    |(foc'.Id : ℝ) - vectorCurrent| ≤ r * |(foc.Id : ℝ) - vectorCurrent| + (2 * 0 + 0.012) ∧
      |(foc'.Iq : ℝ) - 0| ≤ r * |(foc.Iq : ℝ) - 0| + (2 * 0 + 0.012) := by
  have hcal : AllSteps (fun t _ => (t.view .M1).foc.current.voltageAOffset = 2000 ∧
      (t.view .M1).foc.zero = 0) (step fun _ => 0)
      (run (step fun _ => 0) (boot vectorBoot) [.tmr5]) vectorEvents := by
    decide +kernel
  have hpre : ∀ e ∈ [Event.tmr5], e.Physical := by simp [Event.Physical]
  refine currents_track _ vectorBoot_physical hpre .M1 (vectorCurrent, 0) le_rfl vectorEvents ?_
  exact hcal.imp_of_mem fun t e he h => ⟨vectorEvents_physical he, vectorEvents_shows he h⟩

end At32Foc
