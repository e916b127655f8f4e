import At32Foc.OffsetAveraging
import At32Foc.ParkTransform

/-!
# Range of the measured currents

A 12-bit reading less a 12-bit offset is at most 165 A.  `clarke_transform` makes of two such
currents a vector of length at most 330.2, `park_transform` turns it and keeps its length up to
the gain of the rotation, and `LPF_Update` stays in the range of its inputs.  So what
`FocContorl` hands to the current controllers is at most 331 in every step of a run
(`measured_abs_le`), whatever the encoder shows and whatever the zero offset is.
-/

namespace At32Foc

open ControlLib

/-! ## Before the filter -/

theorem phaseCurrent_abs_le {ad offset : UInt16} (ha : ad.toNat ≤ 4095)
    (ho : offset.toNat ≤ 4095) : |phaseCurrent ad offset| ≤ 165 := by
  have hz : |(ad.toNat : ℤ) - (offset.toNat : ℤ)| ≤ 4095 := abs_le.mpr ⟨by omega, by omega⟩
  have hq : |(((ad.toNat : ℤ) - (offset.toNat : ℤ) : ℤ) : ℚ)| ≤ 4095 := by exact_mod_cast hz
  rw [abs_le] at hq ⊢
  unfold phaseCurrent ADC_REF_VOLTAGE GAIN
  constructor <;> linarith

/-- The d/q currents `LPF_Update` is called with. -/
def rawCurrents (pFOC : FOCState ℚ) : FOCState ℚ :=
  parkTransform (clarkeTransform (phaseCurrents pFOC))

/-- The raw values and the offset in use are 12-bit values. -/
structure CurrentState.TwelveBit (c : CurrentState) : Prop where
  adA : c.adA.toNat ≤ 4095
  adB : c.adB.toNat ≤ 4095
  voltageAOffset : c.voltageAOffset.toNat ≤ 4095

theorem clarke_abs_le {pFOC : FOCState ℚ} (h : pFOC.current.TwelveBit) :
    |(clarkeTransform (phaseCurrents pFOC)).Ialpha| ≤ 165 ∧
      |(clarkeTransform (phaseCurrents pFOC)).Ibeta| ≤ 286 := by
  have hA := phaseCurrent_abs_le h.adA h.voltageAOffset
  have hB := phaseCurrent_abs_le h.adB h.voltageAOffset
  have ea : (clarkeTransform (phaseCurrents pFOC)).Ialpha =
      -phaseCurrent pFOC.current.adA pFOC.current.voltageAOffset := rfl
  have eb : (clarkeTransform (phaseCurrents pFOC)).Ibeta =
      (-phaseCurrent pFOC.current.adA pFOC.current.voltageAOffset +
        2 * -phaseCurrent pFOC.current.adB pFOC.current.voltageAOffset) / SQRT3 := rfl
  rw [ea, eb, abs_neg]
  refine ⟨hA, ?_⟩
  rw [abs_le] at hA hB
  rw [abs_div, div_le_iff₀ (by norm_num [SQRT3]), abs_le]
  have hs : 286 * |SQRT3| = 495.352 := by norm_num [SQRT3]
  rw [hs]
  constructor <;> linarith

/-- The rotation keeps such a vector within 331. -/
theorem park_abs_le {pFOC : FOCState ℚ} (ha : |pFOC.Ialpha| ≤ 165) (hb : |pFOC.Ibeta| ≤ 286)
    (hθ : 0 ≤ pFOC.corrAngle ∧ pFOC.corrAngle ≤ _2PI) :
    |(parkTransform pFOC).Id| ≤ 331 ∧ |(parkTransform pFOC).Iq| ≤ 331 := by
  have hgain : parkGain pFOC.corrAngle ≤ 1 + 2e-6 := by
    have hnear := (abs_le.mp (parkGain_near hθ)).2
    linarith
  have hlen : lengthSq (pFOC.Ialpha, pFOC.Ibeta) ≤ 165 ^ 2 + 286 ^ 2 := lengthSq_le ha hb
  have h331 : (0 : ℚ) ≤ 331 := by norm_num
  apply abs_le_of_lengthSq_le (v := ((parkTransform pFOC).Id, (parkTransform pFOC).Iq)) h331
  rw [parkTransform_lengthSq]
  calc parkGain pFOC.corrAngle * lengthSq (pFOC.Ialpha, pFOC.Ibeta)
      ≤ (1 + 2e-6) * (165 ^ 2 + 286 ^ 2) :=
        mul_le_mul hgain hlen (lengthSq_nonneg _) (by norm_num)
    _ ≤ 331 ^ 2 := by norm_num

theorem rawCurrents_abs_le {pFOC : FOCState ℚ} (h : pFOC.current.TwelveBit)
    (hθ : 0 ≤ pFOC.corrAngle ∧ pFOC.corrAngle ≤ _2PI) :
    |(rawCurrents pFOC).Id| ≤ 331 ∧ |(rawCurrents pFOC).Iq| ≤ 331 := by
  obtain ⟨ha, hb⟩ := clarke_abs_le h
  have hcorr : (clarkeTransform (phaseCurrents pFOC)).corrAngle = pFOC.corrAngle := rfl
  rw [← hcorr] at hθ
  unfold rawCurrents
  generalize clarkeTransform (phaseCurrents pFOC) = q at ha hb hθ ⊢
  exact park_abs_le ha hb hθ

/-! ## The filter -/

/-- `LPF_Update` in `FocContorl`: it filters the raw currents and its outputs replace them. -/
theorem focCurrents_filters (pFOC : FOCState ℚ) (lpf : LPFCurrent) :
    (focCurrents pFOC lpf).2 = lpfStep lpf ((rawCurrents pFOC).Id, (rawCurrents pFOC).Iq) ∧
      (focCurrents pFOC lpf).1.Id = (focCurrents pFOC lpf).2.Id.filtered ∧
      (focCurrents pFOC lpf).1.Iq = (focCurrents pFOC lpf).2.Iq.filtered := ⟨rfl, rfl, rfl⟩

/-- What the filter of a drive keeps: its coefficient and its range. -/
structure LPFCurrent.InRange (lpf : LPFCurrent) : Prop where
  tuned : lpf.Tuned
  Id : lpf.Id.filtered ∈ Set.Icc (-331) 331
  Iq : lpf.Iq.filtered ∈ Set.Icc (-331) 331

theorem lpfStep_inRange {lpf : LPFCurrent} (h : lpf.InRange) {Id Iq : ℚ} (hd : |Id| ≤ 331)
    (hq : |Iq| ≤ 331) : (lpfStep lpf (Id, Iq)).InRange := by
  refine ⟨h.tuned, ?_, ?_⟩
  · rw [lpf_filters_Id.out lpf (Id, Iq) h.tuned]
    exact lowPass_mem_Icc lpfAlpha_mem h.Id (abs_le.mp hd)
  · rw [lpf_filters_Iq.out lpf (Id, Iq) h.tuned]
    exact lowPass_mem_Icc lpfAlpha_mem h.Iq (abs_le.mp hq)

/-! ## A run -/

/-- What one control step finds: the peripherals, and the zero offset. -/
structure ControlInput where
  hw : Inputs
  zero : ℚ
  deriving DecidableEq

/-- The drive with the zero offset of the step. -/
def Drive.withZero (d : Drive) (zero : ℚ) : Drive := { d with pFOC := { d.pFOC with zero := zero } }

def controlStep (d : Drive) (x : ControlInput) : Drive := focContorl x.hw (d.withZero x.zero)

/-- What the step hands to the current controllers. -/
def measuredCurrents (d : Drive) (x : ControlInput) : ℚ × ℚ :=
  let measured := (focMeasure x.hw (d.withZero x.zero).pFOC d.LPF_M).1
  (measured.Id, measured.Iq)

/-- The readings of a step are 12-bit values. -/
def ControlInput.TwelveBit (m : Motor) (x : ControlInput) : Prop :=
  (x.hw.ad m).ad0.toNat ≤ 4095 ∧ (x.hw.ad m).ad1.toNat ≤ 4095

/-- The invariant of a run. -/
structure Drive.InRange (m : Motor) (d : Drive) : Prop where
  flag : d.pFOC.current.Mflag = m.flag
  voltageAOffset : d.pFOC.current.voltageAOffset.toNat ≤ 4095
  filter : d.LPF_M.InRange

/-- What is handed on is what the filter holds. -/
theorem focMeasure_out (hw : Inputs) (pFOC : FOCState ℚ) (lpf : LPFCurrent) :
    (focMeasure hw pFOC lpf).1.Id = (focMeasure hw pFOC lpf).2.Id.filtered ∧
      (focMeasure hw pFOC lpf).1.Iq = (focMeasure hw pFOC lpf).2.Iq.filtered := by
  rw [focMeasure]
  generalize sampleAD hw (getCorrectedElectricalAngle hw pFOC) = p
  exact (focCurrents_filters p lpf).2

theorem focMeasure_inRange {m : Motor} {hw : Inputs} {pFOC : FOCState ℚ} {lpf : LPFCurrent}
    (hm : pFOC.current.Mflag = m.flag) (ho : pFOC.current.voltageAOffset.toNat ≤ 4095)
    (had : (hw.ad m).ad0.toNat ≤ 4095 ∧ (hw.ad m).ad1.toNat ≤ 4095) (hf : lpf.InRange) :
    (focMeasure hw pFOC lpf).2.InRange := by
  have hθ := getCorrectedElectricalAngle_mem hw pFOC
  have hw' := (getCorrectedElectricalAngle_same hw pFOC).wiring
  rw [focMeasure]
  generalize getCorrectedElectricalAngle hw pFOC = p at hθ hw' ⊢
  have hoff : p.current.voltageAOffset = pFOC.current.voltageAOffset :=
    congrArg Wiring.voltageAOffset hw'
  have hp : (sampleAD hw p).current.TwelveBit ∧ (sampleAD hw p).corrAngle = p.corrAngle := by
    rw [sampleAD_eq hw ((congrArg Wiring.Mflag hw').trans hm)]
    exact ⟨⟨had.2, had.1, hoff ▸ ho⟩, rfl⟩
  generalize sampleAD hw p = p' at hp ⊢
  obtain ⟨hd, hq⟩ := rawCurrents_abs_le hp.1 (by rw [hp.2]; exact ⟨hθ.1, hθ.2.le⟩)
  rw [(focCurrents_filters p' lpf).1]
  exact lpfStep_inRange hf hd hq

theorem controlStep_inRange {m : Motor} {d : Drive} (h : d.InRange m) {x : ControlInput}
    (hx : x.TwelveBit m) : (controlStep d x).InRange m := by
  have hw := focContorl_wiring x.hw (d.withZero x.zero)
  refine ⟨(congrArg Wiring.Mflag hw).trans h.flag, ?_,
    focMeasure_inRange h.flag h.voltageAOffset hx h.filter⟩
  have ho : (controlStep d x).pFOC.current.voltageAOffset = d.pFOC.current.voltageAOffset :=
    congrArg Wiring.voltageAOffset hw
  rw [ho]
  exact h.voltageAOffset

theorem measuredCurrents_abs_le {m : Motor} {d : Drive} (h : d.InRange m) {x : ControlInput}
    (hx : x.TwelveBit m) : |(measuredCurrents d x).1| ≤ 331 ∧ |(measuredCurrents d x).2| ≤ 331 := by
  have hf : (focMeasure x.hw (d.withZero x.zero).pFOC d.LPF_M).2.InRange :=
    focMeasure_inRange h.flag h.voltageAOffset hx h.filter
  obtain ⟨hd, hq⟩ := focMeasure_out x.hw (d.withZero x.zero).pFOC d.LPF_M
  unfold measuredCurrents
  generalize focMeasure x.hw (d.withZero x.zero).pFOC d.LPF_M = r at hf hd hq ⊢
  show |r.1.Id| ≤ 331 ∧ |r.1.Iq| ≤ 331
  rw [hd, hq]
  exact ⟨abs_le.mpr hf.Id, abs_le.mpr hf.Iq⟩

/-- The drive after `first_get` and `LPF_Init`. -/
def calibratedDrive (fg : ℕ → Inputs) (d : Drive) : Drive :=
  { d with pFOC := firstGet fg d.pFOC, LPF_M := lpfInit d.LPF_M }

theorem calibratedDrive_inRange {m : Motor} {fg : ℕ → Inputs} {d : Drive}
    (hm : d.pFOC.current.Mflag = m.flag) (hfg : TwelveBit m fg) :
    (calibratedDrive fg d).InRange m := by
  obtain ⟨ht, hd, hq⟩ := lpfInit_tuned d.LPF_M
  have h0 : (0 : ℚ) ∈ Set.Icc (-331) 331 := ⟨by norm_num, by norm_num⟩
  exact ⟨(firstGetCurrent_Mflag fg _).trans hm, firstGetCurrent_offset_le hfg hm,
    ht, hd.symm ▸ h0, hq.symm ▸ h0⟩

/-! ## Result -/

/-- **Range of the currents.**  After a calibration on 12-bit readings, every step of every
run on 12-bit readings hands currents of at most 331 to the controllers. -/
theorem measured_abs_le (m : Motor) (fg : ℕ → Inputs) (d : Drive)
    (hm : d.pFOC.current.Mflag = m.flag) (hfg : TwelveBit m fg) (xs : List ControlInput)
    (x : ControlInput) (hxs : ∀ y ∈ xs ++ [x], y.TwelveBit m) :
    let I := measuredCurrents (run controlStep (calibratedDrive fg d) xs) x
    |I.1| ≤ 331 ∧ |I.2| ≤ 331 := by
  have h0 := calibratedDrive_inRange hm hfg
  generalize calibratedDrive fg d = d0 at h0 ⊢
  have hall : AllSteps (fun _ y => y.TwelveBit m) controlStep d0 xs :=
    allSteps_of_forall_mem controlStep xs d0 fun y hy => hxs y (List.mem_append_left [x] hy)
  have hrun : (run controlStep d0 xs).InRange m :=
    run_invariant_of (I := Drive.InRange m) (fun _ _ h hy => controlStep_inRange h hy) xs d0 h0 hall
  exact measuredCurrents_abs_le hrun (hxs x (List.mem_append_right xs List.mem_cons_self))

/-- Calibrated at the bottom of the range, then fed its top. -/
theorem measured_abs_le_top :
    let d : Drive := ⟨Motor_1, svpwmInit, ⟨lpfZero, lpfZero⟩, ⟨tmrInit, tmrInit⟩⟩
    let x : ControlInput := ⟨.both ⟨4095, 4095⟩ 0, 0⟩
    let I := measuredCurrents (run controlStep (calibratedDrive (fun _ => .both ⟨0, 0⟩ 0) d)
      [x, x]) x
    |I.1| ≤ 331 ∧ |I.2| ≤ 331 :=
  measured_abs_le .M1 _ _ rfl (fun _ _ => ⟨Nat.zero_le _, Nat.zero_le _⟩) _ _ fun y hy => by
    simp only [List.cons_append, List.nil_append, List.mem_cons, List.not_mem_nil, or_false,
      or_self] at hy
    subst hy
    exact ⟨le_rfl, le_rfl⟩

end At32Foc
