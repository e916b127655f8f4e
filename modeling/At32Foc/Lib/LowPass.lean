import At32Foc.Lib.Run

/-!
# First-order low-pass filters

`lowPass α s x` moves the state `s` towards the input `x` by the fraction `α` of their
distance.  Two rules for a part `o` of a state that every step of a system filters
(`Filters`), when `α` lies between 0 and 1:

* it never leaves an interval that holds its first value and its inputs
  (`Filters.mem_Icc`);
* it forgets where it started: two runs on the same inputs differ by a power of `1 - α`
  times their first difference, whatever the inputs are (`Filters.forgets`).
-/

namespace ControlLib

open Filter Topology

variable {K : Type*} [Field K] [LinearOrder K] [IsStrictOrderedRing K]
variable {σ ε : Type*}

/-- One filter step. -/
def lowPass (α s x : K) : K := s + α * (x - s)

/-- A step is a convex combination of state and input. -/
theorem lowPass_mem_Icc {α lo hi s x : K} (hα : 0 ≤ α ∧ α ≤ 1) (hs : s ∈ Set.Icc lo hi)
    (hx : x ∈ Set.Icc lo hi) : lowPass α s x ∈ Set.Icc lo hi := by
  have e : lowPass α s x = (1 - α) * s + α * x := by
    rw [lowPass]
    ring
  rw [e]
  exact convex_Icc lo hi hs hx (sub_nonneg.mpr hα.2) hα.1 (by ring)

omit [LinearOrder K] [IsStrictOrderedRing K] in
/-- The input drops out of the difference of two states. -/
theorem lowPass_sub (α s s' x : K) : lowPass α s x - lowPass α s' x = (1 - α) * (s - s') := by
  simp only [lowPass]
  ring

/-- A step on an input between `lo` and `hi` takes the state closer to them. -/
theorem lowPass_tracks {α lo hi s x : K} (hα : 0 ≤ α) (hx : x ∈ Set.Icc lo hi) :
    (1 - α) * (s - lo) ≤ lowPass α s x - lo ∧ lowPass α s x - hi ≤ (1 - α) * (s - hi) := by
  have hlo : lowPass α s x - lo = (1 - α) * (s - lo) + α * (x - lo) := by
    rw [lowPass]
    ring
  have hhi : lowPass α s x - hi = (1 - α) * (s - hi) + α * (x - hi) := by
    rw [lowPass]
    ring
  have h1 := mul_nonneg hα (sub_nonneg.mpr hx.1)
  have h2 := mul_nonpos_of_nonneg_of_nonpos hα (sub_nonpos.mpr hx.2)
  constructor <;> linarith

/-- Every step keeps `I` and filters the part `o` of the state, with the input `inp`. -/
structure Filters (α : K) (I : σ → Prop) (step : σ → ε → σ) (inp : ε → K) (o : σ → K) :
    Prop where
  keep : ∀ s e, I s → I (step s e)
  out : ∀ s e, I s → o (step s e) = lowPass α (o s) (inp e)

/-- The values `o` takes from `s` and from `s'` under the same inputs approach each other at
the rate `1 - α`. -/
structure Forgets [TopologicalSpace K] (α : K) (step : σ → ε → σ) (o : σ → K) (s s' : σ) :
    Prop where
  sub_eq : ∀ es : List ε,
    o (run step s es) - o (run step s' es) = (1 - α) ^ es.length * (o s - o s')
  antitone : ∀ u : ℕ → ε, Antitone fun n =>
    |o (run step s ((List.range n).map u)) - o (run step s' ((List.range n).map u))|
  tendsto : ∀ u : ℕ → ε, Tendsto (fun n =>
    o (run step s ((List.range n).map u)) - o (run step s' ((List.range n).map u))) atTop (𝓝 0)

namespace Filters

variable {α : K} {I : σ → Prop} {step : σ → ε → σ} {inp : ε → K} {o : σ → K} {s s' : σ}

theorem mem_Icc (h : Filters α I step inp o) (hα : 0 ≤ α ∧ α ≤ 1) (hs : I s) {lo hi : K}
    (ho : o s ∈ Set.Icc lo hi) {es : List ε} (hes : ∀ e ∈ es, inp e ∈ Set.Icc lo hi) :
    o (run step s es) ∈ Set.Icc lo hi := by
  refine (run_invariant_of (I := fun t => I t ∧ o t ∈ Set.Icc lo hi)
    (C := fun _ e => inp e ∈ Set.Icc lo hi) ?_ es s ⟨hs, ho⟩
    (allSteps_of_forall_mem step es s hes)).2
  rintro t e ⟨hI, ht⟩ he
  refine ⟨h.keep t e hI, ?_⟩
  rw [h.out t e hI]
  exact lowPass_mem_Icc hα ht he

omit [LinearOrder K] [IsStrictOrderedRing K] in
theorem run_sub (h : Filters α I step inp o) (hs : I s) (hs' : I s') (es : List ε) :
    o (run step s es) - o (run step s' es) = (1 - α) ^ es.length * (o s - o s') := by
  induction es generalizing s s' with
  | nil => simp
  | cons e es ih =>
    calc o (run step s (e :: es)) - o (run step s' (e :: es))
        = (1 - α) ^ es.length * (o (step s e) - o (step s' e)) :=
          ih (h.keep s e hs) (h.keep s' e hs')
      _ = (1 - α) ^ es.length * ((1 - α) * (o s - o s')) := by
          rw [h.out s e hs, h.out s' e hs', lowPass_sub]
      _ = (1 - α) ^ (e :: es).length * (o s - o s') := by
          rw [List.length_cons, pow_succ, mul_assoc]

theorem forgets [Archimedean K] [TopologicalSpace K] [OrderTopology K]
    (h : Filters α I step inp o) (hα : 0 < α ∧ α ≤ 1) (hs : I s) (hs' : I s') :
    Forgets α step o s s' := by
  have h0 : 0 ≤ 1 - α := sub_nonneg.mpr hα.2
  have h1 : 1 - α < 1 := sub_lt_self 1 hα.1
  have e : ∀ (u : ℕ → ε) (n : ℕ),
      o (run step s ((List.range n).map u)) - o (run step s' ((List.range n).map u)) =
        (1 - α) ^ n * (o s - o s') := by
    intro u n
    simpa using h.run_sub hs hs' ((List.range n).map u)
  refine ⟨h.run_sub hs hs', fun u => ?_, fun u => ?_⟩
  · simp only [e]
    intro m n hmn
    show |(1 - α) ^ n * (o s - o s')| ≤ |(1 - α) ^ m * (o s - o s')|
    rw [abs_mul, abs_mul, abs_of_nonneg (pow_nonneg h0 n), abs_of_nonneg (pow_nonneg h0 m)]
    exact mul_le_mul_of_nonneg_right (pow_le_pow_of_le_one h0 h1.le hmn) (abs_nonneg _)
  · simp only [e]
    simpa using (tendsto_pow_atTop_nhds_zero_of_lt_one h0 h1).mul_const (o s - o s')

end Filters

/-! ## Tracking -/

/-- In a run some of whose steps (`tick`) filter an input between `lo` and `hi` while the others
leave `o` alone, `o` approaches the interval at the rate `1 - α` of the ticks. -/
theorem run_tracks {α lo hi : K} (hα : 0 ≤ α ∧ α ≤ 1) {I : σ → Prop} {C : σ → ε → Prop}
    {step : σ → ε → σ} {o : σ → K} (tick : ε → Bool) (hkeep : ∀ s e, I s → C s e → I (step s e))
    (htick : ∀ s e, I s → C s e → tick e = true →
      ∃ x ∈ Set.Icc lo hi, o (step s e) = lowPass α (o s) x)
    (hother : ∀ s e, I s → C s e → tick e = false → o (step s e) = o s) :
    ∀ (es : List ε) (s : σ), I s → AllSteps C step s es →
      (1 - α) ^ es.countP tick * (o s - lo) ≤ o (run step s es) - lo ∧
        o (run step s es) - hi ≤ (1 - α) ^ es.countP tick * (o s - hi) := by
  intro es
  induction es with
  | nil => simp
  | cons e es ih =>
    rintro s hs ⟨he, hes⟩
    obtain ⟨h1, h2⟩ := ih (step s e) (hkeep s e hs he) hes
    rw [run_cons]
    cases ht : tick e with
    | false =>
      rw [List.countP_cons_of_neg (by simp [ht]), ← hother s e hs he ht]
      exact ⟨h1, h2⟩
    | true =>
      obtain ⟨x, hx, hout⟩ := htick s e hs he ht
      obtain ⟨h3, h4⟩ := lowPass_tracks (s := o s) hα.1 hx
      rw [← hout] at h3 h4
      have hpow : 0 ≤ (1 - α) ^ es.countP tick := pow_nonneg (sub_nonneg.mpr hα.2) _
      rw [List.countP_cons_of_pos ht, pow_succ, mul_assoc, mul_assoc]
      exact ⟨(mul_le_mul_of_nonneg_left h3 hpow).trans h1,
        h2.trans (mul_le_mul_of_nonneg_left h4 hpow)⟩

/-- The same about an input within `w` of `c`: what is left of the first distance, and `w`. -/
theorem run_tracks_near {α c w : K} (hα : 0 ≤ α ∧ α ≤ 1) (hw : 0 ≤ w) {I : σ → Prop}
    {C : σ → ε → Prop} {step : σ → ε → σ} {o : σ → K} (tick : ε → Bool)
    (hkeep : ∀ s e, I s → C s e → I (step s e))
    (htick : ∀ s e, I s → C s e → tick e = true →
      ∃ x, |x - c| ≤ w ∧ o (step s e) = lowPass α (o s) x)
    (hother : ∀ s e, I s → C s e → tick e = false → o (step s e) = o s)
    (es : List ε) (s : σ) (hs : I s) (hes : AllSteps C step s es) :
    |o (run step s es) - c| ≤ (1 - α) ^ es.countP tick * |o s - c| + w := by
  have hin : ∀ s e, I s → C s e → tick e = true →
      ∃ x ∈ Set.Icc (c - w) (c + w), o (step s e) = lowPass α (o s) x := by
    intro s e hs he ht
    obtain ⟨x, hx, hout⟩ := htick s e hs he ht
    rw [abs_le] at hx
    exact ⟨x, ⟨by linarith [hx.1], by linarith [hx.2]⟩, hout⟩
  obtain ⟨h1, h2⟩ := run_tracks hα tick hkeep hin hother es s hs hes
  have hpow : 0 ≤ (1 - α) ^ es.countP tick := pow_nonneg (sub_nonneg.mpr hα.2) _
  have hr := mul_nonneg hpow hw
  have hlo := mul_le_mul_of_nonneg_left (neg_abs_le (o s - c)) hpow
  have hhi := mul_le_mul_of_nonneg_left (le_abs_self (o s - c)) hpow
  rw [abs_le]
  constructor <;> linarith

end ControlLib
