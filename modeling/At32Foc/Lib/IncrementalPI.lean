import At32Foc.Lib.Run

/-!
# Incremental PI controllers with a clamped output

The velocity form of a PI controller adds `kp * (b - lastBias) + ki * b` to its
previous output for each error (`bias`) `b` and clamps the sum to `[-|M|, |M|]`.
The clamp acts on the accumulated output while `lastBias` keeps the raw error,
so a saturated step forgets part of the proportional term but still takes all
of it back when the error drops.

* `piStep_abs_le`: every output is within the limit, from any state.
* `piRun_nonneg`: nonnegative errors give nonnegative outputs as long as the
  proportional term alone stays within the limit (`kp * b ≤ |M|`).
* `piRun_reverses`: past that bound two errors are enough for a reversal, and
  `piRun_nonneg_iff` puts the two together (`piRun_nonpos_iff` for the other sign).
* `piRun_positional`: while no step is clamped, the controller is the positional law, a
  proportional term on the last error and an integral over all of them.
-/

namespace ControlLib

variable {K : Type*} [Field K] [LinearOrder K] [IsStrictOrderedRing K]

/-- The clamp to `[-|M|, |M|]`, written as two comparisons. -/
def clampSym (M x : K) : K :=
  let y := if x > |M| then |M| else x
  if y < -|M| then -|M| else y

theorem clampSym_eq (M x : K) : clampSym M x = max (-|M|) (min |M| x) := by
  have hM := abs_nonneg M
  unfold clampSym
  rcases lt_or_ge |M| x with h | h
  · rw [if_pos h, if_neg (by linarith), min_eq_left h.le, max_eq_right (by linarith)]
  · rw [if_neg (not_lt.mpr h), min_eq_right h]
    rcases lt_or_ge x (-|M|) with h' | h'
    · rw [if_pos h', max_eq_left h'.le]
    · rw [if_neg (not_lt.mpr h'), max_eq_right h']

theorem abs_clampSym_le (M x : K) : |clampSym M x| ≤ |M| := by
  have hM := abs_nonneg M
  rw [clampSym_eq, abs_le]
  exact ⟨le_max_left _ _, max_le (by linarith) (min_le_left _ _)⟩

theorem clampSym_of_abs_le {M x : K} (h : |x| ≤ |M|) : clampSym M x = x := by
  rw [abs_le] at h
  rw [clampSym_eq, min_eq_right h.2, max_eq_right h.1]

theorem clampSym_neg (M x : K) : clampSym M (-x) = -clampSym M x := by
  have hM : max (-|M|) |M| = |M| := max_eq_right (neg_le_self (abs_nonneg M))
  calc clampSym M (-x) = max (-|M|) (min |M| (-x)) := clampSym_eq M (-x)
    _ = min |M| (max (-|M|) (-x)) := by rw [max_min_distrib_left, hM]
    _ = -max (-|M|) (min |M| x) := by rw [← min_neg_neg, neg_neg, ← max_neg_neg]
    _ = -clampSym M x := by rw [clampSym_eq]

/-- The clamp keeps every lower bound that is itself within the limit. -/
theorem le_clampSym {M x a : K} (ha : a ≤ |M|) (hx : a ≤ x) : a ≤ clampSym M x := by
  rw [clampSym_eq]
  exact le_max_of_le_right (le_min ha hx)

theorem clampSym_lt_zero {M x : K} (hM : M ≠ 0) (hx : x < 0) : clampSym M x < 0 := by
  have hM' : 0 < |M| := abs_pos.mpr hM
  rw [clampSym_eq]
  exact max_lt (by linarith) ((min_le_right _ _).trans_lt hx)

/-! ## The controller -/

/-- What an incremental controller remembers. -/
structure PIState (K : Type*) where
  out : K
  lastBias : K
  deriving Repr, DecidableEq

/-- One step on the error `b`, with gains `kp`, `ki` and limit `M`. -/
def piStep (kp ki M : K) (s : PIState K) (b : K) : PIState K :=
  ⟨clampSym M (s.out + (kp * (b - s.lastBias) + ki * b)), b⟩

/-- The controller at rest. -/
def piRest : PIState K := ⟨0, 0⟩

def PIState.neg (s : PIState K) : PIState K := ⟨-s.out, -s.lastBias⟩

theorem piStep_abs_le (kp ki M : K) (s : PIState K) (b : K) : |(piStep kp ki M s b).out| ≤ |M| :=
  abs_clampSym_le _ _

theorem piStep_neg (kp ki M : K) (s : PIState K) (b : K) :
    piStep kp ki M s.neg (-b) = (piStep kp ki M s b).neg := by
  have e : -s.out + (kp * (-b - -s.lastBias) + ki * -b) =
      -(s.out + (kp * (b - s.lastBias) + ki * b)) := by ring
  simp only [piStep, PIState.neg, e, clampSym_neg]

/-- Mirrored errors give mirrored outputs. -/
theorem piRun_neg (kp ki M : K) (bs : List K) (s : PIState K) :
    run (piStep kp ki M) s.neg (bs.map (- ·)) = (run (piStep kp ki M) s bs).neg := by
  induction bs generalizing s with
  | nil => rfl
  | cons b bs ih => rw [List.map_cons, run_cons, run_cons, piStep_neg, ih]

/-- The output has not fallen below the proportional term of the last error. -/
def PIState.Ahead (kp : K) (s : PIState K) : Prop := 0 ≤ s.lastBias ∧ kp * s.lastBias ≤ s.out

theorem piStep_ahead {kp ki M : K} (hki : 0 ≤ ki) {s : PIState K} {b : K}
    (hs : s.Ahead kp) (hb : 0 ≤ b ∧ kp * b ≤ |M|) : (piStep kp ki M s b).Ahead kp := by
  refine ⟨hb.1, le_clampSym hb.2 ?_⟩
  have hib : 0 ≤ ki * b := mul_nonneg hki hb.1
  have hs2 := hs.2
  calc kp * b = kp * s.lastBias + kp * (b - s.lastBias) := by ring
    _ ≤ s.out + (kp * (b - s.lastBias) + ki * b) := by linarith

/-- No reversal while the proportional term alone stays within the limit. -/
theorem piRun_nonneg {kp ki M : K} (hkp : 0 ≤ kp) (hki : 0 ≤ ki) (bs : List K)
    (hbs : ∀ b ∈ bs, 0 ≤ b ∧ kp * b ≤ |M|) : 0 ≤ (run (piStep kp ki M) piRest bs).out := by
  have h := run_invariant_of (I := PIState.Ahead kp) (C := fun _ b => 0 ≤ b ∧ kp * b ≤ |M|)
    (fun s b hs hb => piStep_ahead hki hs hb) bs piRest
    (by simp [PIState.Ahead, piRest]) (allSteps_of_forall_mem _ bs _ hbs)
  exact (mul_nonneg hkp h.1).trans h.2

/-- Past that bound, an error `B` that then vanishes drives the output to the other side. -/
theorem piRun_reverses {kp M B : K} (ki : K) (hM : M ≠ 0) (h : |M| < kp * B) :
    (run (piStep kp ki M) piRest [B, 0]).out < 0 := by
  have hsat : (piStep kp ki M piRest B).out ≤ |M| :=
    (le_abs_self _).trans (piStep_abs_le kp ki M piRest B)
  rw [run_cons, run_cons, run_nil]
  apply clampSym_lt_zero hM
  have e : (piStep kp ki M piRest B).lastBias = B := rfl
  rw [e]
  linarith

/-- The exact bound on the errors under which no sequence of them is reversed. -/
theorem piRun_nonneg_iff {kp ki M B : K} (hkp : 0 ≤ kp) (hki : 0 ≤ ki) (hB : 0 ≤ B) :
    (∀ bs : List K, (∀ b ∈ bs, 0 ≤ b ∧ b ≤ B) → 0 ≤ (run (piStep kp ki M) piRest bs).out) ↔
      M = 0 ∨ kp * B ≤ |M| := by
  constructor
  · intro hall
    by_contra hcon
    rw [not_or, not_le] at hcon
    have hrev := piRun_reverses ki hcon.1 hcon.2
    have hge := hall [B, 0] (by
      intro b hb
      simp only [List.mem_cons, List.not_mem_nil, or_false] at hb
      rcases hb with rfl | rfl
      · exact ⟨hB, le_rfl⟩
      · exact ⟨le_rfl, hB⟩)
    linarith
  · rintro (rfl | hle) bs hbs
    · -- with no authority at all the output never leaves zero
      have h0 : ∀ (bs : List K) (s : PIState K), s.out = 0 → (run (piStep kp ki 0) s bs).out = 0 :=
        fun bs s hs => run_invariant (I := fun s => s.out = 0)
          (fun s b _ => by simpa using piStep_abs_le kp ki 0 s b) bs s hs
      exact (h0 bs piRest rfl).ge
    · refine piRun_nonneg hkp hki bs fun b hb => ⟨(hbs b hb).1, ?_⟩
      exact (mul_le_mul_of_nonneg_left (hbs b hb).2 hkp).trans hle

/-- The same bound for errors of the other sign. -/
theorem piRun_nonpos_iff {kp ki M B : K} (hkp : 0 ≤ kp) (hki : 0 ≤ ki) (hB : 0 ≤ B) :
    (∀ bs : List K, (∀ b ∈ bs, -B ≤ b ∧ b ≤ 0) → (run (piStep kp ki M) piRest bs).out ≤ 0) ↔
      M = 0 ∨ kp * B ≤ |M| := by
  rw [← piRun_nonneg_iff hkp hki hB]
  have hneg : ∀ bs : List K, (run (piStep kp ki M) piRest (bs.map (- ·))).out =
      -(run (piStep kp ki M) piRest bs).out := by
    intro bs
    have h := piRun_neg kp ki M bs piRest
    have h0 : (piRest : PIState K).neg = piRest := by simp [PIState.neg, piRest]
    rw [h0] at h
    exact congrArg PIState.out h
  constructor
  · intro hall bs hbs
    have h := hall (bs.map (- ·)) (by
      simp only [List.mem_map]
      rintro _ ⟨b, hb, rfl⟩
      exact ⟨neg_le_neg (hbs b hb).2, neg_nonpos.mpr (hbs b hb).1⟩)
    rw [hneg] at h
    linarith
  · intro hall bs hbs
    have h := hall (bs.map (- ·)) (by
      simp only [List.mem_map]
      rintro _ ⟨b, hb, rfl⟩
      exact ⟨neg_nonneg.mpr (hbs b hb).2, neg_le.mp (hbs b hb).1⟩)
    rw [hneg] at h
    linarith

/-! ## The positional law -/

/-- The clamp leaves the step on the error `b` alone. -/
def Unclamped (kp ki M : K) (s : PIState K) (b : K) : Prop :=
  |s.out + (kp * (b - s.lastBias) + ki * b)| ≤ |M|

/-- The output less the proportional term of the last error. -/
def PIState.integral (kp : K) (s : PIState K) : K := s.out - kp * s.lastBias

theorem piStep_integral {kp ki M : K} {s : PIState K} {b : K} (h : Unclamped kp ki M s b) :
    (piStep kp ki M s b).integral kp = s.integral kp + ki * b := by
  rw [PIState.integral, piStep, clampSym_of_abs_le h, PIState.integral]
  ring

/-- The proportional terms telescope: what is left is the sum of the errors. -/
theorem piRun_integral {kp ki M : K} (bs : List K) (s : PIState K)
    (h : AllSteps (Unclamped kp ki M) (piStep kp ki M) s bs) :
    (run (piStep kp ki M) s bs).integral kp = s.integral kp + ki * bs.sum := by
  induction bs generalizing s with
  | nil => simp
  | cons b bs ih =>
    obtain ⟨hb, hrest⟩ := h
    rw [run_cons, ih _ hrest, piStep_integral hb, List.sum_cons]
    ring

/-- While no step is clamped, the incremental controller is the positional one. -/
theorem piRun_positional {kp ki M : K} (bs : List K) (b : K)
    (h : AllSteps (Unclamped kp ki M) (piStep kp ki M) piRest (bs ++ [b])) :
    run (piStep kp ki M) piRest (bs ++ [b]) = ⟨kp * b + ki * (bs ++ [b]).sum, b⟩ := by
  have hint := piRun_integral (bs ++ [b]) piRest h
  have hlast : (run (piStep kp ki M) piRest (bs ++ [b])).lastBias = b := by
    rw [run_append]
    rfl
  generalize run (piStep kp ki M) piRest (bs ++ [b]) = s at hint hlast ⊢
  obtain ⟨out, lastBias⟩ := s
  simp only [PIState.integral, piRest] at hint hlast
  rw [PIState.mk.injEq]
  refine ⟨?_, hlast⟩
  rw [hlast] at hint
  linarith

end ControlLib
