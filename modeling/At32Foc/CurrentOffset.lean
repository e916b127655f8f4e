import At32Foc.OffsetAveraging

/-!
# Offset calibration

`first_get` averages sixteen readings of each phase into `voltage_a_offset` and
`voltage_b_offset`, and readings that do not change are stored exactly
(`firstGetCurrent_const`).  `FocContorl` subtracts `voltage_a_offset` from both
phases, so phase A is calibrated and phase B is off by the difference of the two
amplifier biases:

    Ia = -f x,   Ib = -f (y + (b0 - a0))                                  (currentsAfter_eq)

and the bias cancels exactly when this difference is the same
(`offset_cancels_iff`), down to zero current at rest exactly when `a0 = b0`.
-/

namespace At32Foc

open ControlLib

/-! ## Calibration -/

/-- Raw values of the two phases: biases `a`, `b` with deviations `x`, `y`. -/
def biased (a b : ℕ) (x y : ℤ) : ADBuffer :=
  ⟨UInt16.ofNat (b + y).toNat, UInt16.ofNat (a + x).toNat⟩

/-- A raw value of the 12-bit converter. -/
def Raw (v : ℤ) : Prop := 0 ≤ v ∧ v ≤ 4095

/-- Readings that do not change are stored as they are. -/
theorem firstGetCurrent_const {m : Motor} {hw : ℕ → Inputs} {ad : ADBuffer}
    (hhw : ∀ k, (hw k).ad m = ad) (ha : ad.ad1.toNat ≤ 4095) (hb : ad.ad0.toNat ≤ 4095)
    {c : CurrentState} (h : c.Mflag = m.flag) :
    (firstGetCurrent hw c).voltageAOffset = ad.ad1 ∧
      (firstGetCurrent hw c).voltageBOffset = ad.ad0 := by
  have hA : ∀ k, samplesA m hw k = ad.ad1.toNat := fun k => by rw [samplesA, hhw]
  have hB : ∀ k, samplesB m hw k = ad.ad0.toNat := fun k => by rw [samplesB, hhw]
  have h12 : TwelveBit m hw := fun k _ => ⟨(hA k).trans_le ha, (hB k).trans_le hb⟩
  obtain ⟨ea, eb⟩ := firstGetCurrent_offsets h12 h
  simp only [hA, Finset.sum_const, Finset.card_range, smul_eq_mul] at ea
  simp only [hB, Finset.sum_const, Finset.card_range, smul_eq_mul] at eb
  exact ⟨UInt16.toNat_inj.mp (by omega), UInt16.toNat_inj.mp (by omega)⟩

/-- The offsets boot stores. -/
theorem bootView_offsets {m : Motor} {fg : ℕ → Inputs} (ai : ℕ → Inputs) {ad : ADBuffer}
    (hfg : ∀ k, (fg k).ad m = ad) (ha : ad.ad1.toNat ≤ 4095) (hb : ad.ad0.toNat ≤ 4095) :
    (bootView m fg ai).foc.wiring = ⟨m.flag, m.setPWM, ad.ad1, ad.ad0⟩ := by
  have hw := bootFoc_wired m fg
  obtain ⟨ea, eb⟩ := firstGetCurrent_const hfg ha hb
    (c := (motorInit m.flag m.setPWM : FOCState ℚ).current) rfl
  have hd : (strongDrag (bootFoc m fg) ⟨bootTmr.of m, bootTmr.of m⟩).1.wiring =
      (bootFoc m fg).wiring := rfl
  have hf : (bootFoc m fg).wiring = ⟨m.flag, m.setPWM, ad.ad1, ad.ad0⟩ := by
    rw [FOCState.wiring, hw.1, hw.2]
    exact congrArg₂ (Wiring.mk m.flag m.setPWM) ea eb
  unfold bootView angleInit
  generalize strongDrag (bootFoc m fg) ⟨bootTmr.of m, bootTmr.of m⟩ = dragged at hd ⊢
  exact ((angleInitZero_same ai dragged.1).wiring.trans hd).trans hf

/-! ## The control step -/

theorem sampleAD_current {m : Motor} (hw : Inputs) {pFOC : FOCState ℚ}
    (h : pFOC.current.Mflag = m.flag) :
    (sampleAD hw pFOC).current.adA = (hw.ad m).ad1 ∧
      (sampleAD hw pFOC).current.adB = (hw.ad m).ad0 := by
  rw [sampleAD_eq hw h]
  exact ⟨rfl, rfl⟩

/-- The phase currents of readings `ad` with the offset `o`: phases A and B with the sign of
`clarke_transform`, phase C as computed before that sign. -/
structure FOCState.Phases (ad : ADBuffer) (o : UInt16) (pFOC : FOCState ℚ) : Prop where
  Ia : pFOC.Ia = -phaseCurrent ad.ad1 o
  Ib : pFOC.Ib = -phaseCurrent ad.ad0 o
  Ic : pFOC.Ic = 0 - phaseCurrent ad.ad1 o - phaseCurrent ad.ad0 o

theorem focCurrents_phases (pFOC : FOCState ℚ) (lpf : LPFCurrent) :
    (focCurrents pFOC lpf).1.Phases ⟨pFOC.current.adB, pFOC.current.adA⟩
      pFOC.wiring.voltageAOffset := ⟨rfl, rfl, rfl⟩

theorem focControl_phases {ad : ADBuffer} {o : UInt16} {pFOC : FOCState ℚ}
    (h : pFOC.Phases ad o) : (focControl pFOC).Phases ad o := ⟨h.Ia, h.Ib, h.Ic⟩

/-- What a control step leaves in the phase currents. -/
theorem focContorl_phases {m : Motor} (hw : Inputs) (d : Drive)
    (h : d.pFOC.current.Mflag = m.flag) :
    (focContorl hw d).pFOC.Phases (hw.ad m) d.pFOC.wiring.voltageAOffset := by
  have hs := (getCorrectedElectricalAngle_same hw d.pFOC).wiring
  unfold focContorl focMeasure
  generalize getCorrectedElectricalAngle hw d.pFOC = p at hs ⊢
  have ho : (sampleAD hw p).wiring = d.pFOC.wiring := (sampleAD_wiring hw p).trans hs
  obtain ⟨ha, hb⟩ := sampleAD_current hw ((congrArg Wiring.Mflag hs).trans h)
  generalize sampleAD hw p = p' at ho ha hb ⊢
  have hp := focCurrents_phases p' d.LPF_M
  rw [ho, ha, hb] at hp
  generalize focCurrents p' d.LPF_M = r at hp ⊢
  exact focControl_phases hp

theorem control_phases {m : Motor} {v : MotorView} (h : WiredFor m v.foc) (ad : ADBuffer)
    (angle : ℚ) : (v.control m ad angle).foc.Phases ad v.foc.wiring.voltageAOffset := by
  have hp := focContorl_phases (.both ad angle) ⟨v.foc, v.sv, v.lpf, ⟨v.tmr, v.tmr⟩⟩ h.1
  rw [Inputs.ad_both] at hp
  exact hp

/-- Amperes per unit of the converter. -/
def ampsPerUnit : ℚ := ADC_REF_VOLTAGE * GAIN / 4096

theorem phaseCurrent_eq (ad offset : UInt16) :
    phaseCurrent ad offset = ((ad.toNat : ℚ) - offset.toNat) * ampsPerUnit := by
  rw [phaseCurrent, ampsPerUnit]
  push_cast
  norm_num
  ring

theorem phaseCurrent_raw {v o : ℤ} (hv : Raw v) (ho : Raw o) :
    phaseCurrent (UInt16.ofNat v.toNat) (UInt16.ofNat o.toNat) = (v - o) * ampsPerUnit := by
  have h : ∀ {z : ℤ}, Raw z → ((UInt16.ofNat z.toNat).toNat : ℚ) = z := by
    intro z hz
    obtain ⟨h0, h1⟩ := hz
    have hmod : z.toNat % 2 ^ 16 = z.toNat := Nat.mod_eq_of_lt (by omega)
    have hz : ((UInt16.ofNat z.toNat).toNat : ℤ) = z := by
      rw [UInt16.toNat_ofNat', hmod]
      exact Int.toNat_of_nonneg h0
    exact_mod_cast hz
  rw [phaseCurrent_eq, h hv, h ho]

/-! ## Results -/

/-- The ADC transfer of a motor. -/
def Event.adc (m : Motor) (ad : ADBuffer) (angle : ℚ) : Event :=
  match m with
  | .M1 => .adc1 ad angle
  | .M2 => .adc3 ad angle

/-- `Ia` and `Ib` of a motor after boot, any events, and a control step on the readings `ad`. -/
def currentsAfter (strtof : List UInt8 → ℚ) (m : Motor) (b : BootInputs) (evs : List Event)
    (ad : ADBuffer) (angle : ℚ) : ℚ × ℚ :=
  let v := (run (step strtof) (boot b) (evs ++ [.adc m ad angle])).view m
  (v.foc.Ia, v.foc.Ib)

theorem run_wiring (strtof : List UInt8 → ℚ) (m : Motor) (b : BootInputs) (evs : List Event) :
    ((run (step strtof) (boot b) evs).view m).foc.wiring = ((boot b).view m).foc.wiring := by
  rw [run_view strtof m evs (boot b) (boot_wired b)]
  exact run_invariant (I := fun v => v.foc.wiring = ((boot b).view m).foc.wiring)
    (fun v e h => (motorStep_wiring strtof m v e).trans h) _ _ rfl

theorem run_wired (strtof : List UInt8 → ℚ) (b : BootInputs) (evs : List Event) :
    Wired (run (step strtof) (boot b) evs) :=
  run_invariant (step_wired strtof) evs _ (boot_wired b)

/-- A run that ends in an ADC transfer of a motor ends in a control step of that motor. -/
theorem run_adc (strtof : List UInt8 → ℚ) (m : Motor) (b : BootInputs) (evs : List Event)
    (ad : ADBuffer) (angle : ℚ) :
    let v := (run (step strtof) (boot b) evs).view m
    WiredFor m v.foc ∧ (run (step strtof) (boot b) (evs ++ [.adc m ad angle])).view m =
      v.control m ad angle := by
  have hw := run_wired strtof b evs
  rw [run_append, run_cons, run_nil,
    view_step_some strtof hw (o := .control ad angle) (by cases m <;> rfl)]
  refine ⟨?_, rfl⟩
  cases m
  · exact hw.1
  · exact hw.2

/-- The currents in terms of the deviations: phase B keeps the difference of the biases. -/
theorem currentsAfter_eq (strtof : List UInt8 → ℚ) {m : Motor} {b : BootInputs} {a0 b0 : ℕ}
    (h : Raw a0 ∧ Raw b0) (hb : ∀ k, (b.firstGet m k).ad m = biased a0 b0 0 0)
    (evs : List Event) (angle : ℚ) {x y : ℤ} (hx : Raw (a0 + x)) (hy : Raw (b0 + y)) :
    currentsAfter strtof m b evs (biased a0 b0 x y) angle =
      (-(x * ampsPerUnit), -((y + (b0 - a0)) * ampsPerUnit)) := by
  have hraw : ∀ {n : ℕ}, Raw n → (UInt16.ofNat ((n : ℤ) + 0).toNat).toNat ≤ 4095 := by
    rintro n ⟨-, hn⟩
    have : n % 2 ^ 16 ≤ 4095 := (Nat.mod_le _ _).trans (by omega)
    simpa using this
  have hown : ∀ k, ((b.firstGet m k).own m).ad m = biased a0 b0 0 0 := by
    intro k
    rw [Inputs.ad_own, hb]
  have hoff := bootView_offsets (fun k => (b.angleInit m k).own m) hown (hraw h.1) (hraw h.2)
  rw [← view_boot, ← run_wiring strtof m b evs] at hoff
  obtain ⟨hm, hlast⟩ := run_adc strtof m b evs (biased a0 b0 x y) angle
  rw [currentsAfter, hlast]
  generalize (run (step strtof) (boot b) evs).view m = v at hoff hm ⊢
  obtain ⟨ca, cb, -⟩ := control_phases hm (biased a0 b0 x y) angle
  rw [hoff] at ca cb
  have ea : phaseCurrent (biased a0 b0 x y).ad1 (biased a0 b0 0 0).ad1 =
      (((a0 + x : ℤ) : ℚ) - (a0 : ℤ)) * ampsPerUnit := by
    simpa [biased] using phaseCurrent_raw hx h.1
  have eb : phaseCurrent (biased a0 b0 x y).ad0 (biased a0 b0 0 0).ad1 =
      (((b0 + y : ℤ) : ℚ) - (a0 : ℤ)) * ampsPerUnit := by
    simpa [biased] using phaseCurrent_raw hy h.1
  refine Prod.ext (ca.trans ?_) (cb.trans ?_)
  · rw [ea]; push_cast; ring
  · rw [eb]; push_cast; ring

theorem ampsPerUnit_pos : 0 < ampsPerUnit := by
  norm_num [ampsPerUnit, ADC_REF_VOLTAGE, GAIN]

/-- **Offset calibration.**  Calibrated on the biases `(a0, b0)` and `(a0', b0')`, a motor
measures the same currents for the same deviations exactly when the two pairs have the same
difference, and no current at rest exactly when `a0 = b0`. -/
theorem offset_cancels_iff (strtof : List UInt8 → ℚ) (m : Motor) (b b' : BootInputs)
    (a0 b0 a0' b0' : ℕ) (evs evs' : List Event) (angle angle' : ℚ)
    (h : Raw a0 ∧ Raw b0) (h' : Raw a0' ∧ Raw b0')
    (hb : ∀ k, (b.firstGet m k).ad m = biased a0 b0 0 0)
    (hb' : ∀ k, (b'.firstGet m k).ad m = biased a0' b0' 0 0) :
    ((∀ x y : ℤ, Raw (a0 + x) → Raw (b0 + y) → Raw (a0' + x) → Raw (b0' + y) →
        currentsAfter strtof m b evs (biased a0 b0 x y) angle =
          currentsAfter strtof m b' evs' (biased a0' b0' x y) angle') ↔
      (b0 : ℤ) - a0 = b0' - a0') ∧
    (currentsAfter strtof m b evs (biased a0 b0 0 0) angle = (0, 0) ↔ a0 = b0) := by
  have hk := ampsPerUnit_pos.ne'
  have e := fun {x y : ℤ} => currentsAfter_eq strtof h hb evs angle (x := x) (y := y)
  have e' := fun {x y : ℤ} => currentsAfter_eq strtof h' hb' evs' angle' (x := x) (y := y)
  have zero : ∀ n : ℕ, Raw n → Raw (n + 0) := fun n hn => by rwa [add_zero]
  refine ⟨⟨fun hall => ?_, fun hd x y hx hy hx' hy' => ?_⟩, ?_⟩
  · have h0 := hall 0 0 (zero a0 h.1) (zero b0 h.2) (zero a0' h'.1) (zero b0' h'.2)
    rw [e (zero a0 h.1) (zero b0 h.2), e' (zero a0' h'.1) (zero b0' h'.2)] at h0
    have h2 := mul_right_cancel₀ hk (neg_injective (congrArg Prod.snd h0))
    have h3 : ((b0 - a0 : ℤ) : ℚ) = ((b0' - a0' : ℤ) : ℚ) := by push_cast; linarith
    exact_mod_cast h3
  · have hq : (b0 : ℚ) - a0 = b0' - a0' := by exact_mod_cast hd
    rw [e hx hy, e' hx' hy', hq]
  · rw [e (zero a0 h.1) (zero b0 h.2)]
    simp [hk, sub_eq_zero, eq_comm]

theorem offset_cancels_iff_equal :
    currentsAfter (fun _ => 0) .M2 (.const (.both (biased 2000 2000 0 0) 0)) [.tmr5]
      (biased 2000 2000 0 0) 1 = (0, 0) := by
  have hr : Raw 2000 := ⟨by norm_num, by norm_num⟩
  exact (offset_cancels_iff (fun _ => 0) .M2 (.const (.both (biased 2000 2000 0 0) 0))
    (.const (.both (biased 2000 2000 0 0) 0)) 2000 2000 2000 2000 [.tmr5] [] 1 0 ⟨hr, hr⟩ ⟨hr, hr⟩
    (fun _ => rfl) (fun _ => rfl)).2.mpr rfl

/-- At rest, phase B shows about 4 A when its amplifier sits 100 units above that of phase
A, and nothing when the two agree. -/
theorem offset_keeps_bias :
    currentsAfter (fun _ => 0) .M1 (.const (.both (biased 2000 2100 0 0) 0)) []
        (biased 2000 2100 0 0) 0 = (0, -4125 / 1024) ∧
      currentsAfter (fun _ => 0) .M1 (.const (.both (biased 2000 2000 0 0) 0)) []
        (biased 2000 2000 0 0) 0 = (0, 0) := by
  decide +kernel

end At32Foc
