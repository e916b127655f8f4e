import At32Foc.Lib.Modulation

/-!
# Continuity of the centred modulation

The centred pattern of a line-to-line command moves no faster than the command
(`MinMaxModulated.abs_sub_le`), and scaling a command down into the period at most doubles
the distance of two commands (`modScale_abs_sub_le`).  Together: the on-times of two scaled
commands are at most twice as far apart as the commands, whichever legs are on longest and
whether the one, the other or both are over-modulated (`modulated_abs_sub_le`).
-/

namespace ControlLib

variable {K : Type*} [Field K] [LinearOrder K] [IsStrictOrderedRing K]

/-! ## Largest and smallest of three -/

omit [Field K] [IsStrictOrderedRing K] in
theorem max3_le {a b c d : K} (ha : a ≤ d) (hb : b ≤ d) (hc : c ≤ d) : max3 a b c ≤ d :=
  max_le ha (max_le hb hc)

omit [Field K] [IsStrictOrderedRing K] in
theorem le_max3 (a b c : K) : a ≤ max3 a b c ∧ b ≤ max3 a b c ∧ c ≤ max3 a b c :=
  ⟨le_max_left _ _, le_max_of_le_right (le_max_left _ _),
    le_max_of_le_right (le_max_right _ _)⟩

theorem max3_sub_abs_le (a b c a' b' c' : K) :
    |max3 a b c - max3 a' b' c'| ≤ max3 |a - a'| |b - b'| |c - c'| :=
  (abs_max_sub_max_le_max _ _ _ _).trans (max_le_max le_rfl (abs_max_sub_max_le_max _ _ _ _))

theorem min3_sub_abs_le (a b c a' b' c' : K) :
    |min3 a b c - min3 a' b' c'| ≤ max3 |a - a'| |b - b'| |c - c'| :=
  (abs_min_sub_min_le_max _ _ _ _).trans (max_le_max le_rfl (abs_min_sub_min_le_max _ _ _ _))

theorem max3_abs_sub_abs_le (a b c a' b' c' : K) :
    |(max3 |a| |b| |c|) - (max3 |a'| |b'| |c'|)| ≤ max3 |a - a'| |b - b'| |c - c'| :=
  (max3_sub_abs_le _ _ _ _ _ _).trans (max_le_max (abs_abs_sub_abs_le a a')
    (max_le_max (abs_abs_sub_abs_le b b') (abs_abs_sub_abs_le c c')))

/-! ## The centred pattern -/

namespace MinMaxModulated

variable {Ts ab bc ca Ta Tb Tc ab' bc' ca' Ta' Tb' Tc' : K}

/-- The first on-time from the line-to-line duties alone. -/
theorem two_mul_a (h : MinMaxModulated Ts ab bc ca Ta Tb Tc) :
    2 * Ta = Ts - max3 0 (-ab) ca - min3 0 (-ab) ca := by
  have hmax : max3 Ta Tb Tc = max3 0 (-ab) ca + Ta := by
    rw [← max3_add_const, ← h.ab, ← h.ca]
    congr 1 <;> ring
  have hmin : min3 Ta Tb Tc = min3 0 (-ab) ca + Ta := by
    rw [← min3_add_const, ← h.ab, ← h.ca]
    congr 1 <;> ring
  have hcen := h.centred
  rw [hmax, hmin] at hcen
  linarith

theorem abs_sub_a_le (h : MinMaxModulated Ts ab bc ca Ta Tb Tc)
    (h' : MinMaxModulated Ts ab' bc' ca' Ta' Tb' Tc') :
    |Ta - Ta'| ≤ max3 |ab - ab'| |bc - bc'| |ca - ca'| := by
  have hmax := max3_sub_abs_le 0 (-ab) ca 0 (-ab') ca'
  have hmin := min3_sub_abs_le 0 (-ab) ca 0 (-ab') ca'
  have hδ : max3 |(0 : K) - 0| |-ab - -ab'| |ca - ca'| ≤ max3 |ab - ab'| |bc - bc'| |ca - ca'| := by
    obtain ⟨h1, -, h3⟩ := le_max3 |ab - ab'| |bc - bc'| |ca - ca'|
    have e : |-ab - -ab'| = |ab - ab'| := by rw [← abs_neg (ab - ab')]; congr 1; ring
    rw [e, sub_zero, abs_zero]
    exact max3_le ((abs_nonneg _).trans h1) h1 h3
  have e2 : 2 * (Ta - Ta') = -(max3 0 (-ab) ca - max3 0 (-ab') ca') -
      (min3 0 (-ab) ca - min3 0 (-ab') ca') := by
    have e := h.two_mul_a
    have e' := h'.two_mul_a
    linarith
  have b1 := abs_le.mp (hmax.trans hδ)
  have b2 := abs_le.mp (hmin.trans hδ)
  rw [abs_le]
  constructor <;> linarith [b1.1, b1.2, b2.1, b2.2]

/-- No on-time moves further than the line-to-line command. -/
theorem abs_sub_le (h : MinMaxModulated Ts ab bc ca Ta Tb Tc)
    (h' : MinMaxModulated Ts ab' bc' ca' Ta' Tb' Tc') :
    max3 |Ta - Ta'| |Tb - Tb'| |Tc - Tc'| ≤ max3 |ab - ab'| |bc - bc'| |ca - ca'| := by
  have hb := h.rotate.abs_sub_a_le h'.rotate
  have hc := h.rotate.rotate.abs_sub_a_le h'.rotate.rotate
  rw [max3_rotate] at hb
  rw [max3_rotate, max3_rotate] at hc
  exact max3_le (h.abs_sub_a_le h') hb hc

/-- Half the period on every leg is the pattern of no command. -/
theorem level (Ts : K) : MinMaxModulated Ts 0 0 0 (Ts / 2) (Ts / 2) (Ts / 2) := by
  refine ⟨sub_self _, sub_self _, sub_self _, ?_⟩
  simp only [max3, min3, max_self, min_self]
  ring

end MinMaxModulated

/-! ## Over-modulation -/

omit [IsStrictOrderedRing K] in
theorem modScale_mul_eq {Ts m : K} (hTs : 0 < Ts) : modScale Ts m * m = min m Ts := by
  unfold modScale
  split_ifs with h
  · rw [one_mul, min_eq_left h]
  · rw [div_mul_cancel₀ _ (hTs.trans (not_le.mp h)).ne', min_eq_right (not_le.mp h).le]

/-- A larger command is scaled down further. -/
theorem modScale_anti {Ts m m' : K} (hTs : 0 < Ts) (hm : m' ≤ m) :
    modScale Ts m ≤ modScale Ts m' := by
  unfold modScale
  split_ifs with h h' h'
  · exact le_rfl
  · exact absurd (hm.trans h) h'
  · rw [div_le_one (hTs.trans (not_le.mp h))]
    exact (not_le.mp h).le
  · exact div_le_div_of_nonneg_left hTs.le (hTs.trans (not_le.mp h')) hm

/-- The scale times a size moves no further than the size. -/
theorem modScale_sub_mul_le {Ts m m' δ : K} (hTs : 0 < Ts) (hm : m' ≤ m) (hδ : m - m' ≤ δ) :
    (modScale Ts m' - modScale Ts m) * m ≤ δ := by
  have e : (modScale Ts m' - modScale Ts m) * m =
      modScale Ts m' * m' - modScale Ts m * m + modScale Ts m' * (m - m') := by ring
  have h1 : modScale Ts m' * m' ≤ modScale Ts m * m := by
    rw [modScale_mul_eq hTs, modScale_mul_eq hTs]
    exact min_le_min_right Ts hm
  have h2 : modScale Ts m' * (m - m') ≤ 1 * (m - m') :=
    mul_le_mul_of_nonneg_right (modScale_le_one hTs) (sub_nonneg.mpr hm)
  rw [e]
  linarith

/-- One component of two scaled commands, the first command being the larger. -/
theorem modScale_abs_sub_le_of_le {Ts m m' x x' δ : K} (hTs : 0 < Ts) (hm : m' ≤ m)
    (hmδ : m - m' ≤ δ) (hx : |x| ≤ m) (hxδ : |x - x'| ≤ δ) :
    |modScale Ts m * x - modScale Ts m' * x'| ≤ 2 * δ := by
  have hk := modScale_pos (m := m') hTs
  have hgap : 0 ≤ modScale Ts m' - modScale Ts m := sub_nonneg.mpr (modScale_anti hTs hm)
  have h1 : |modScale Ts m' * (x - x')| ≤ δ := by
    rw [abs_mul, abs_of_pos hk]
    calc modScale Ts m' * |x - x'| ≤ 1 * |x - x'| :=
          mul_le_mul_of_nonneg_right (modScale_le_one hTs) (abs_nonneg _)
      _ ≤ δ := by rwa [one_mul]
  have h2 : |(modScale Ts m' - modScale Ts m) * x| ≤ δ := by
    rw [abs_mul, abs_of_nonneg hgap]
    exact (mul_le_mul_of_nonneg_left hx hgap).trans (modScale_sub_mul_le hTs hm hmδ)
  calc |modScale Ts m * x - modScale Ts m' * x'| =
        |modScale Ts m' * (x - x') - (modScale Ts m' - modScale Ts m) * x| := by congr 1; ring
    _ ≤ |modScale Ts m' * (x - x')| + |(modScale Ts m' - modScale Ts m) * x| := abs_sub _ _
    _ ≤ 2 * δ := by linarith

/-- One component of two scaled commands. -/
theorem modScale_abs_sub_le {Ts m m' x x' δ : K} (hTs : 0 < Ts) (hmδ : |m - m'| ≤ δ)
    (hx : |x| ≤ m) (hx' : |x'| ≤ m') (hxδ : |x - x'| ≤ δ) :
    |modScale Ts m * x - modScale Ts m' * x'| ≤ 2 * δ := by
  rcases le_total m' m with hm | hm
  · exact modScale_abs_sub_le_of_le hTs hm ((le_abs_self _).trans hmδ) hx hxδ
  · rw [abs_sub_comm] at hmδ hxδ ⊢
    exact modScale_abs_sub_le_of_le hTs hm ((le_abs_self _).trans hmδ) hx' hxδ

section Modulated

variable {Ts ab bc ca Ta Tb Tc ab' bc' ca' Ta' Tb' Tc' : K}

/-- **Continuity.**  The on-times of two scaled commands. -/
theorem modulated_abs_sub_le (hTs : 0 < Ts)
    (h : let k := modScale Ts (max3 |ab| |bc| |ca|)
      MinMaxModulated Ts (k * ab) (k * bc) (k * ca) Ta Tb Tc)
    (h' : let k := modScale Ts (max3 |ab'| |bc'| |ca'|)
      MinMaxModulated Ts (k * ab') (k * bc') (k * ca') Ta' Tb' Tc') :
    max3 |Ta - Ta'| |Tb - Tb'| |Tc - Tc'| ≤ 2 * max3 |ab - ab'| |bc - bc'| |ca - ca'| := by
  have hm := max3_abs_sub_abs_le ab bc ca ab' bc' ca'
  obtain ⟨d1, d2, d3⟩ := le_max3 |ab - ab'| |bc - bc'| |ca - ca'|
  obtain ⟨x1, x2, x3⟩ := le_max3 |ab| |bc| |ca|
  obtain ⟨y1, y2, y3⟩ := le_max3 |ab'| |bc'| |ca'|
  refine (h.abs_sub_le h').trans (max3_le ?_ ?_ ?_)
  · exact modScale_abs_sub_le hTs hm x1 y1 d1
  · exact modScale_abs_sub_le hTs hm x2 y2 d2
  · exact modScale_abs_sub_le hTs hm x3 y3 d3

end Modulated

end ControlLib
