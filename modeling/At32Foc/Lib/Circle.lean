import At32Foc.Lib.Trunc

/-!
# Distance on a circle, and the mean of points on it

Points of a circle of circumference `P` are given by coordinates in `[0, P)`.
`circDist` is the distance modulo `P`.  The arithmetic mean of the coordinates is
a mean on the circle only away from the seam: for points within `δ < P / 4` of a
centre `c` it stays within `δ` of `c` if the whole arc avoids the seam
(`circDist_mean_le`), while five points on each side of the seam put it on the
far side (`circDist_half_turn`).

`unwrapDiff` turns a difference of coordinates into the signed difference of less than
half a turn; it recovers the movement of a point that moved by less than that
(`unwrapDiff_wrap`).
-/

namespace ControlLib

variable {K : Type*} [Field K] [LinearOrder K] [IsStrictOrderedRing K] [FloorRing K]

/-- Distance of `a` and `b` modulo `P`. -/
def circDist (P a b : K) : K := |a - b - P * (round ((a - b) / P) : K)|

theorem circDist_le_abs {P : K} (hP : 0 < P) (a b : K) (n : ℤ) :
    circDist P a b ≤ |a - b - P * n| := by
  have e : ∀ m : ℤ, |a - b - P * (m : K)| = P * |(a - b) / P - m| := by
    intro m
    rw [← abs_of_pos hP, ← abs_mul, mul_sub, abs_of_pos hP, mul_div_cancel₀ _ hP.ne']
  rw [circDist, e, e]
  exact mul_le_mul_of_nonneg_left (round_le _ n) hP.le

theorem circDist_nonneg (P a b : K) : 0 ≤ circDist P a b := abs_nonneg _

/-- `a` is within `δ` of `b` modulo `P` iff some whole number of turns brings it there. -/
theorem circDist_le_iff {P : K} (hP : 0 < P) (a b δ : K) :
    circDist P a b ≤ δ ↔ ∃ n : ℤ, |a - b - P * n| ≤ δ :=
  ⟨fun h => ⟨_, h⟩, fun ⟨n, h⟩ => (circDist_le_abs hP a b n).trans h⟩

/-- Distances add up along a circle, for a difference of coordinates taken on the line. -/
theorem circDist_add_sub_le {P : K} (hP : 0 < P) (a b x y : K) :
    circDist P a (b + (x - y)) ≤ circDist P a x + circDist P b y := by
  obtain ⟨n, hn⟩ := (circDist_le_iff hP a x _).mp le_rfl
  obtain ⟨m, hm⟩ := (circDist_le_iff hP b y _).mp le_rfl
  refine (circDist_le_iff hP a _ _).mpr ⟨n - m, ?_⟩
  calc |a - (b + (x - y)) - P * ((n - m : ℤ) : K)|
      = |(a - x - P * n) - (b - y - P * m)| := by push_cast; ring_nf
    _ ≤ |a - x - P * n| + |b - y - P * m| := abs_sub _ _
    _ ≤ circDist P a x + circDist P b y := add_le_add hn hm

/-- Whole turns do not matter. -/
theorem circDist_le_of_turns {P δ : K} (hP : 0 < P) {a b : K} (n : ℤ)
    (h : circDist P a (b + P * n) ≤ δ) : circDist P a b ≤ δ := by
  obtain ⟨m, hm⟩ := (circDist_le_iff hP a _ δ).mp h
  refine (circDist_le_iff hP a b δ).mpr ⟨m + n, ?_⟩
  have e : a - b - P * ((m + n : ℤ) : K) = a - (b + P * n) - P * m := by
    push_cast
    ring
  rwa [e]

/-- Off the seam, distance modulo `P` bounds the plain distance. -/
theorem abs_sub_le_of_circDist_le {P a c δ : K} (hP : 0 < P) (ha : 0 ≤ a ∧ a < P)
    (hc : δ ≤ c ∧ c + δ < P) (h : circDist P a c ≤ δ) : |a - c| ≤ δ := by
  obtain ⟨n, hn⟩ := (circDist_le_iff hP a c δ).mp h
  have hn' := abs_le.mp hn
  -- `a - P * n` lies in `[c - δ, c + δ] ⊆ [0, P)`, and so does `a`
  have h1 : (-1 : ℤ) < n := by
    have : (-1 : K) < n := by
      by_contra hcon
      have := mul_le_mul_of_nonneg_left (not_lt.mp hcon) hP.le
      linarith
    exact_mod_cast this
  have h2 : n < (1 : ℤ) := by
    have : (n : K) < 1 := by
      by_contra hcon
      have := mul_le_mul_of_nonneg_left (not_lt.mp hcon) hP.le
      linarith
    exact_mod_cast this
  have h0 : n = 0 := by omega
  rw [h0] at hn
  simpa using hn

/-- The mean of a list of numbers. -/
def mean (xs : List K) : K := xs.sum / xs.length

theorem abs_sum_sub_le (xs : List K) (c δ : K) (h : ∀ x ∈ xs, |x - c| ≤ δ) :
    |xs.sum - xs.length * c| ≤ xs.length * δ := by
  induction xs with
  | nil => simp
  | cons x xs ih =>
    have hx := h x List.mem_cons_self
    have ih' := ih fun y hy => h y (List.mem_cons_of_mem x hy)
    calc |(x :: xs).sum - (x :: xs).length * c|
        = |(x - c) + (xs.sum - xs.length * c)| := by
          rw [List.sum_cons, List.length_cons]; push_cast; ring_nf
      _ ≤ |x - c| + |xs.sum - xs.length * c| := abs_add_le _ _
      _ ≤ δ + xs.length * δ := add_le_add hx ih'
      _ = (x :: xs).length * δ := by rw [List.length_cons]; push_cast; ring

theorem abs_mean_sub_le {xs : List K} (hne : xs ≠ []) {c δ : K} (h : ∀ x ∈ xs, |x - c| ≤ δ) :
    |mean xs - c| ≤ δ := by
  have hlen : (0 : K) < xs.length := by
    exact_mod_cast List.length_pos_iff.mpr hne
  have e : mean xs - c = (xs.sum - xs.length * c) / xs.length := by
    rw [mean]; field_simp
  rw [e, abs_div, abs_of_pos hlen, div_le_iff₀ hlen, mul_comm δ]
  exact abs_sum_sub_le xs c δ h

omit [FloorRing K] in
/-- The mean of coordinates is a coordinate. -/
theorem mean_mem {P : K} {xs : List K} (hne : xs ≠ []) (h : ∀ x ∈ xs, 0 ≤ x ∧ x < P) :
    0 ≤ mean xs ∧ mean xs < P := by
  have hlen : (0 : K) < xs.length := by
    exact_mod_cast List.length_pos_iff.mpr hne
  refine ⟨div_nonneg (List.sum_nonneg fun x hx => (h x hx).1) hlen.le, ?_⟩
  rw [mean, div_lt_iff₀ hlen, mul_comm, ← nsmul_eq_mul]
  simpa using List.sum_lt_sum_of_ne_nil hne id (fun _ => P) fun x hx => (h x hx).2

/-- **Off the seam** the mean of points within `δ` of `c` is within `δ` of `c`. -/
theorem circDist_mean_le {P c δ : K} (hP : 0 < P) {xs : List K} (hne : xs ≠ [])
    (hxs : ∀ x ∈ xs, 0 ≤ x ∧ x < P) (hc : δ ≤ c ∧ c + δ < P)
    (h : ∀ x ∈ xs, circDist P x c ≤ δ) : circDist P (mean xs) c ≤ δ := by
  rw [circDist_le_iff hP]
  refine ⟨0, ?_⟩
  simpa using abs_mean_sub_le hne fun x hx => abs_sub_le_of_circDist_le hP (hxs x hx) hc (h x hx)

/-- A point half a turn away, up to less than a quarter turn, is out of reach. -/
theorem circDist_half_turn {P c d δ : K} (hP : 0 < P) (hδ : δ < P / 4) (hd : |d| ≤ δ) (s : K)
    (hs : s = 1 ∨ s = -1) : δ < circDist P (c + d / 2 + s * (P / 2)) c := by
  by_contra hcon
  obtain ⟨n, hn⟩ := (circDist_le_iff hP _ _ _).mp (not_lt.mp hcon)
  have hn' := abs_le.mp hn
  have hd' := abs_le.mp hd
  -- `s / 2 - n` is at least one half in absolute value
  rcases hs with rfl | rfl
  · rcases le_or_gt n 0 with h | h
    · have hnK : (n : K) ≤ 0 := by exact_mod_cast h
      have := mul_nonneg hP.le (neg_nonneg.mpr hnK)
      linarith
    · have hnK : (1 : K) ≤ n := by exact_mod_cast h
      have := mul_le_mul_of_nonneg_left hnK hP.le
      linarith
  · rcases le_or_gt 0 n with h | h
    · have hnK : (0 : K) ≤ n := by exact_mod_cast h
      have := mul_nonneg hP.le hnK
      linarith
    · have hnK : (n : K) ≤ -1 := by exact_mod_cast (show n ≤ -1 by omega)
      have := mul_le_mul_of_nonneg_left hnK hP.le
      linarith

/-! ## Signed differences -/

/-- A difference of coordinates, brought to at most half a turn. -/
def unwrapDiff (P d : K) : K :=
  if P < d + d then d - P else if d + d < -P then d + P else d

omit [FloorRing K] in
theorem abs_unwrapDiff_le {P a b : K} (ha : 0 ≤ a ∧ a < P) (hb : 0 ≤ b ∧ b < P) :
    |unwrapDiff P (a - b)| ≤ P / 2 := by
  unfold unwrapDiff
  split_ifs with h1 h2
  · exact abs_le.mpr ⟨by linarith, by linarith⟩
  · exact abs_le.mpr ⟨by linarith, by linarith⟩
  · exact abs_le.mpr ⟨by linarith, by linarith⟩

/-- A movement of less than half a turn, from the coordinates before and after it. -/
theorem unwrapDiff_wrap {P p q : K} (hP : 0 < P) (h : |q - p| < P / 2) :
    unwrapDiff P (wrap q P - wrap p P) = q - p := by
  obtain ⟨n, hn⟩ := wrap_eq_sub q P
  obtain ⟨m, hm⟩ := wrap_eq_sub p P
  have hq := wrap_mem (x := q) hP
  have hp := wrap_mem (x := p) hP
  have h' := abs_lt.mp h
  have hd : wrap q P - wrap p P = q - p + P * ((m - n : ℤ) : K) := by
    rw [hn, hm]
    push_cast
    ring
  have hlt : wrap q P - wrap p P < P := by linarith
  have hgt : -P < wrap q P - wrap p P := by linarith
  rw [hd] at hlt hgt ⊢
  -- the coordinates differ from the positions by -1, 0 or 1 turns
  have hk1 : (m - n : ℤ) < 2 := by
    by_contra hcon
    have : (2 : K) ≤ ((m - n : ℤ) : K) := by exact_mod_cast not_lt.mp hcon
    have := mul_le_mul_of_nonneg_left this hP.le
    linarith
  have hk2 : (-2 : ℤ) < m - n := by
    by_contra hcon
    have : ((m - n : ℤ) : K) ≤ -2 := by exact_mod_cast not_lt.mp hcon
    have := mul_le_mul_of_nonneg_left this hP.le
    linarith
  have hk : m - n = -1 ∨ m - n = 0 ∨ m - n = 1 := by omega
  unfold unwrapDiff
  rcases hk with hk | hk | hk <;> rw [hk] <;> push_cast
  · rw [if_neg (by linarith), if_pos (by linarith)]
    ring
  · rw [mul_zero, add_zero, if_neg (by linarith), if_neg (by linarith)]
  · rw [if_pos (by linarith)]
    ring

end ControlLib
