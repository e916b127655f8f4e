import At32Foc.FocState
import At32Foc.Lib.LowPass

/-!
# First-order low-pass filters

`filter.c`: one filter per current axis and one for the speed, all with the same
coefficient `lpfAlpha`, which lies strictly between 0 and 1.  Each of the three outputs is
a low-pass filter of its own input (`lpf_filters_Id`, `lpf_filters_Iq`,
`lpfSpeed_filters`): it stays where its inputs are and forgets where it started
(`lpf_settles`).
-/

namespace At32Foc

open ControlLib

/-- The coefficient both initializers compute. -/
def lpfAlpha : ℚ :=
  let dt := 1.0 / SAMPLE_FREQ
  1.0 / (1.0 + (1.0 / (2.0 * PI * dt * CUTOFF_FREQ)))

def lpfInit (_Pcurrent : LPFCurrent) : LPFCurrent :=
  ⟨⟨lpfAlpha, 0.0⟩, ⟨lpfAlpha, 0.0⟩⟩

def lpfSpeedInit (_Pspeed : LPFSpeed) : LPFSpeed := ⟨⟨lpfAlpha, 0.0⟩⟩

/-- One filter step. -/
def LPFFilter.update (f : LPFFilter) (input : ℚ) : LPFFilter :=
  { f with filtered := f.filtered + f.alpha * (input - f.filtered) }

/-- `LPF_Update`: the filter, and the values stored through `Id_out` and `Iq_out`. -/
def lpfUpdate (filter : LPFCurrent) (IdInput IqInput : ℚ) : LPFCurrent × ℚ × ℚ :=
  let filter := { filter with Id := filter.Id.update IdInput }
  let IdOut := filter.Id.filtered
  let filter := { filter with Iq := filter.Iq.update IqInput }
  (filter, IdOut, filter.Iq.filtered)

/-- `LPF_Speed_Update`: the filter, and the value stored through `speed_out`. -/
def lpfSpeedUpdate (filter : LPFSpeed) (speedInput : ℚ) : LPFSpeed × ℚ :=
  let filter := { filter with speed := filter.speed.update speedInput }
  (filter, filter.speed.filtered)

theorem lpfAlpha_pos : 0 < lpfAlpha := by
  norm_num [lpfAlpha, SAMPLE_FREQ, CUTOFF_FREQ, PI]

theorem lpfAlpha_lt_one : lpfAlpha < 1 := by
  norm_num [lpfAlpha, SAMPLE_FREQ, CUTOFF_FREQ, PI]

/-- A filter at zero that is fed zero stays at zero. -/
theorem LPFFilter.update_zero {f : LPFFilter} (h : f.filtered = 0) : f.update 0 = f := by
  cases f
  simp_all [LPFFilter.update]

/-! ## Runs -/

/-- `LPF_Update` on a pair of inputs, as a step. -/
def lpfStep (filter : LPFCurrent) (x : ℚ × ℚ) : LPFCurrent := (lpfUpdate filter x.1 x.2).1

def lpfSpeedStep (filter : LPFSpeed) (x : ℚ) : LPFSpeed := (lpfSpeedUpdate filter x).1

/-- Both axes have the coefficient of `LPF_Init`. -/
def LPFCurrent.Tuned (filter : LPFCurrent) : Prop :=
  filter.Id.alpha = lpfAlpha ∧ filter.Iq.alpha = lpfAlpha

def LPFSpeed.Tuned (filter : LPFSpeed) : Prop := filter.speed.alpha = lpfAlpha

theorem lpfAlpha_mem : 0 ≤ lpfAlpha ∧ lpfAlpha ≤ 1 := ⟨lpfAlpha_pos.le, lpfAlpha_lt_one.le⟩

theorem LPFFilter.update_filtered {f : LPFFilter} (h : f.alpha = lpfAlpha) (x : ℚ) :
    (f.update x).filtered = lowPass lpfAlpha f.filtered x := by
  rw [← h]
  rfl

theorem lpf_filters_Id :
    Filters lpfAlpha LPFCurrent.Tuned lpfStep Prod.fst (fun f => f.Id.filtered) :=
  ⟨fun _ _ h => h, fun _ x h => LPFFilter.update_filtered h.1 x.1⟩

theorem lpf_filters_Iq :
    Filters lpfAlpha LPFCurrent.Tuned lpfStep Prod.snd (fun f => f.Iq.filtered) :=
  ⟨fun _ _ h => h, fun _ x h => LPFFilter.update_filtered h.2 x.2⟩

theorem lpfSpeed_filters :
    Filters lpfAlpha LPFSpeed.Tuned lpfSpeedStep id (fun f => f.speed.filtered) :=
  ⟨fun _ _ h => h, fun _ x h => LPFFilter.update_filtered h x⟩

theorem lpfInit_tuned (P : LPFCurrent) : (lpfInit P).Tuned ∧ (lpfInit P).Id.filtered = 0 ∧
    (lpfInit P).Iq.filtered = 0 := by
  refine ⟨⟨rfl, rfl⟩, ?_, ?_⟩ <;> norm_num [lpfInit]

theorem lpfSpeedInit_tuned (P : LPFSpeed) :
    (lpfSpeedInit P).Tuned ∧ (lpfSpeedInit P).speed.filtered = 0 := by
  refine ⟨rfl, ?_⟩
  norm_num [lpfSpeedInit]

/-- **Low-pass filters.**  From the initial state, the output of every call lies in each
interval around 0 that holds the inputs of its axis so far; and from any two states with
that coefficient, the same inputs bring the outputs together at the rate `1 - lpfAlpha`. -/
theorem lpf_settles :
    (0 < lpfAlpha ∧ lpfAlpha < 1) ∧
    (∀ (P : LPFCurrent) (lo hi lo' hi' : ℚ), 0 ∈ Set.Icc lo hi → 0 ∈ Set.Icc lo' hi' →
      ∀ (xs : List (ℚ × ℚ)) (x : ℚ × ℚ),
      (∀ y ∈ xs ++ [x], y.1 ∈ Set.Icc lo hi ∧ y.2 ∈ Set.Icc lo' hi') →
        let out := (lpfUpdate (run lpfStep (lpfInit P) xs) x.1 x.2).2
        out.1 ∈ Set.Icc lo hi ∧ out.2 ∈ Set.Icc lo' hi') ∧
    (∀ (P : LPFSpeed) (lo hi : ℚ), 0 ∈ Set.Icc lo hi → ∀ (xs : List ℚ) (x : ℚ),
      (∀ y ∈ xs ++ [x], y ∈ Set.Icc lo hi) →
        (lpfSpeedUpdate (run lpfSpeedStep (lpfSpeedInit P) xs) x).2 ∈ Set.Icc lo hi) ∧
    (∀ f g : LPFCurrent, f.Tuned → g.Tuned →
      Forgets lpfAlpha lpfStep (fun f => f.Id.filtered) f g ∧
        Forgets lpfAlpha lpfStep (fun f => f.Iq.filtered) f g) ∧
    (∀ f g : LPFSpeed, f.Tuned → g.Tuned →
      Forgets lpfAlpha lpfSpeedStep (fun f => f.speed.filtered) f g) := by
  have hα := And.intro lpfAlpha_pos lpfAlpha_mem.2
  refine ⟨⟨lpfAlpha_pos, lpfAlpha_lt_one⟩, ?_, ?_, fun f g hf hg => ⟨?_, ?_⟩, fun f g hf hg => ?_⟩
  · intro P lo hi lo' hi' h h' xs x hxs out
    obtain ⟨hP, hd0, hq0⟩ := lpfInit_tuned P
    have hd := lpf_filters_Id.mem_Icc lpfAlpha_mem hP (hd0.symm ▸ h) fun y hy => (hxs y hy).1
    have hq := lpf_filters_Iq.mem_Icc lpfAlpha_mem hP (hq0.symm ▸ h') fun y hy => (hxs y hy).2
    rw [run_append, run_cons, run_nil] at hd hq
    exact ⟨hd, hq⟩
  · intro P lo hi h xs x hxs
    obtain ⟨hP, h0⟩ := lpfSpeedInit_tuned P
    have hs := lpfSpeed_filters.mem_Icc lpfAlpha_mem hP (h0.symm ▸ h) hxs
    rwa [run_append, run_cons, run_nil] at hs
  · exact lpf_filters_Id.forgets hα hf hg
  · exact lpf_filters_Iq.forgets hα hf hg
  · exact lpfSpeed_filters.forgets hα hf hg

end At32Foc
