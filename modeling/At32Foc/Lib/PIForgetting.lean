import At32Foc.Lib.IncrementalPI

/-!
# How an incremental PI controller forgets

Two incremental PI controllers with the same gains, started differently and fed the same
errors, never move apart: after every step their outputs differ by no more than their
integrals did at the start (`piRun_out_sub_le`).  A constant error long enough to saturate the
output takes both to the same limit, and from then on they are the same (`piRun_saturates`).
-/

namespace ControlLib

variable {K : Type*} [Field K] [LinearOrder K] [IsStrictOrderedRing K]

/-! ## The clamp -/

theorem clampSym_sub_abs_le (M x y : K) : |clampSym M x - clampSym M y| ≤ |x - y| := by
  have hmin : |min |M| x - min |M| y| ≤ |x - y| := by
    have h := abs_min_sub_min_le_max |M| x |M| y
    rwa [sub_self, abs_zero, max_eq_right (abs_nonneg _)] at h
  rw [clampSym_eq, clampSym_eq, max_comm (-|M|), max_comm (-|M|)]
  exact (abs_max_sub_max_le_abs _ _ _).trans hmin

/-- Going up from within the limits, only the upper one matters. -/
theorem clampSym_of_ge {M x : K} (h : -|M| ≤ x) : clampSym M x = min |M| x := by
  rw [clampSym_eq, max_eq_right (le_min (neg_le_self (abs_nonneg M)) h)]

/-! ## Two controllers -/

variable {kp ki M : K}

/-- One step on the same error. -/
theorem piStep_out_sub_le (s s' : PIState K) (b : K) :
    |(piStep kp ki M s b).out - (piStep kp ki M s' b).out| ≤
      |s.integral kp - s'.integral kp| := by
  refine (clampSym_sub_abs_le _ _ _).trans (le_of_eq ?_)
  congr 1
  simp only [PIState.integral]
  ring

omit [IsStrictOrderedRing K] in
/-- After it they remember the same error, and differ in the output alone. -/
theorem piStep_integral_sub (s s' : PIState K) (b : K) :
    (piStep kp ki M s b).integral kp - (piStep kp ki M s' b).integral kp =
      (piStep kp ki M s b).out - (piStep kp ki M s' b).out := by
  simp only [PIState.integral, piStep]
  ring

theorem piRun_out_sub_le (bs : List K) (b : K) (s s' : PIState K) :
    |(run (piStep kp ki M) s (bs ++ [b])).out - (run (piStep kp ki M) s' (bs ++ [b])).out| ≤
      |s.integral kp - s'.integral kp| := by
  induction bs generalizing s s' with
  | nil => exact piStep_out_sub_le s s' b
  | cons b' bs ih =>
    rw [List.cons_append, run_cons, run_cons]
    refine (ih (piStep kp ki M s b') (piStep kp ki M s' b')).trans ?_
    rw [piStep_integral_sub]
    exact piStep_out_sub_le s s' b'

/-! ## A constant error -/

/-- A repeated error adds its integral term each time, up to the limit. -/
theorem piRun_replicate_ge (kp : K) {e : K} (he : 0 < ki * e) (n : ℕ) (s : PIState K)
    (hlast : s.lastBias = e) (hout : |s.out| ≤ |M|) :
    min |M| (s.out + n * (ki * e)) ≤ (run (piStep kp ki M) s (List.replicate n e)).out := by
  induction n generalizing s with
  | zero => simp
  | succ n ih =>
    have hlo := (abs_le.mp hout).1
    have hstep : (piStep kp ki M s e).out = min |M| (s.out + ki * e) := by
      rw [piStep, hlast, sub_self, mul_zero, zero_add, clampSym_of_ge (by linarith)]
    rw [List.replicate_succ, run_cons]
    refine le_trans ?_ (ih (piStep kp ki M s e) rfl (piStep_abs_le kp ki M s e))
    have hn : 0 ≤ (n : K) * (ki * e) := mul_nonneg (Nat.cast_nonneg n) he.le
    rw [hstep, Nat.cast_succ]
    refine le_min (min_le_left _ _) ?_
    rw [min_add]
    refine le_min ?_ ?_
    · exact (min_le_left _ _).trans (by linarith)
    · exact (min_le_right _ _).trans (by linarith)

omit [IsStrictOrderedRing K] in
theorem piRun_lastBias (kp ki M : K) (bs : List K) (b : K) (s : PIState K) :
    (run (piStep kp ki M) s (bs ++ [b])).lastBias = b := by
  rw [run_append]
  rfl

theorem piRun_abs_le (kp ki M : K) (bs : List K) (b : K) (s : PIState K) :
    |(run (piStep kp ki M) s (bs ++ [b])).out| ≤ |M| := by
  rw [run_append]
  exact piStep_abs_le kp ki M _ b

/-- Whatever came before, a positive error that lasts saturates the output: the first step may
lose the whole range, each later one gains `ki * e`. -/
theorem piRun_saturates_pos (kp : K) {e : K} (he : 0 < ki * e) {n : ℕ}
    (hn : 2 * |M| ≤ n * (ki * e)) (s : PIState K) :
    run (piStep kp ki M) s (List.replicate (n + 1) e) = ⟨|M|, e⟩ := by
  have hge := piRun_replicate_ge kp he n (piStep kp ki M s e) rfl
    (piStep_abs_le kp ki M s e)
  have hlo := (abs_le.mp (piStep_abs_le kp ki M s e)).1
  rw [min_eq_left (by linarith)] at hge
  have hle := piRun_abs_le kp ki M (List.replicate n e) e s
  have hlast := piRun_lastBias kp ki M (List.replicate n e) e s
  rw [← List.replicate_succ'] at hle hlast
  have hout : (run (piStep kp ki M) s (List.replicate (n + 1) e)).out = |M| := by
    refine le_antisymm ((le_abs_self _).trans hle) ?_
    rwa [List.replicate_succ, run_cons]
  generalize run (piStep kp ki M) s (List.replicate (n + 1) e) = r at hout hlast
  obtain ⟨out, lastBias⟩ := r
  rw [PIState.mk.injEq]
  exact ⟨hout, hlast⟩

/-- The same for both signs. -/
theorem piRun_saturates {e : K} (he : ki * e ≠ 0) {n : ℕ} (hn : 2 * |M| ≤ n * |ki * e|)
    (s : PIState K) :
    run (piStep kp ki M) s (List.replicate (n + 1) e) =
      ⟨if 0 < ki * e then |M| else -|M|, e⟩ := by
  rcases lt_or_gt_of_ne he with hneg | hpos
  · -- mirrored errors, mirrored outputs
    rw [abs_of_neg hneg] at hn
    have hpos : 0 < ki * -e := by rw [mul_neg]; exact neg_pos.mpr hneg
    have hn' : 2 * |M| ≤ n * (ki * -e) := by rwa [mul_neg]
    have h := piRun_saturates_pos kp hpos hn' s.neg
    have hmap : List.replicate (n + 1) (-e) = (List.replicate (n + 1) e).map (- ·) := by
      rw [List.map_replicate]
    rw [hmap, piRun_neg] at h
    rw [if_neg (not_lt.mpr hneg.le)]
    have h' := congrArg PIState.neg h
    simpa only [PIState.neg, neg_neg] using h'
  · rw [abs_of_pos hpos] at hn
    rw [if_pos hpos]
    exact piRun_saturates_pos kp hpos hn s

end ControlLib
