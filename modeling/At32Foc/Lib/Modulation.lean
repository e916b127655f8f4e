import Mathlib

/-!
# Centred (min-max) modulation of a three-leg bridge

Three legs are on for `Ta`, `Tb`, `Tc` within a period `Ts`.  The load sees only
the differences (line-to-line duties); the common part is free, and the centred
pattern fixes it by asking that the longest and the shortest on-time add up to
`Ts`.  `MinMaxModulated` is this specification.  It determines the on-times
(`MinMaxModulated.unique`), and keeps them within the period as long as no
line-to-line duty exceeds it (`MinMaxModulated.mem_period`).

A command past the period is scaled down uniformly by `modScale`.
-/

namespace ControlLib

variable {K : Type*} [Field K] [LinearOrder K] [IsStrictOrderedRing K]

def max3 (a b c : K) : K := max a (max b c)

def min3 (a b c : K) : K := min a (min b c)

/-- On-times `Ta`, `Tb`, `Tc` with line-to-line duties `ab`, `bc`, `ca`, centred in `Ts`. -/
structure MinMaxModulated (Ts ab bc ca Ta Tb Tc : K) : Prop where
  ab : Ta - Tb = ab
  bc : Tb - Tc = bc
  ca : Tc - Ta = ca
  centred : max3 Ta Tb Tc + min3 Ta Tb Tc = Ts

/-- Scale of a command whose largest line-to-line duty is `m`. -/
def modScale (Ts m : K) : K := if m ≤ Ts then 1 else Ts / m

theorem modScale_pos {Ts m : K} (hTs : 0 < Ts) : 0 < modScale Ts m := by
  unfold modScale
  split_ifs with h
  · exact one_pos
  · exact div_pos hTs (hTs.trans (not_le.mp h))

theorem modScale_le_one {Ts m : K} (hTs : 0 < Ts) : modScale Ts m ≤ 1 := by
  unfold modScale
  split_ifs with h
  · exact le_rfl
  · rw [div_le_one (hTs.trans (not_le.mp h))]
    exact (not_le.mp h).le

omit [IsStrictOrderedRing K] in
theorem modScale_of_le {Ts m : K} (h : m ≤ Ts) : modScale Ts m = 1 := if_pos h

omit [IsStrictOrderedRing K] in
theorem modScale_mul_le {Ts m : K} (hTs : 0 < Ts) : modScale Ts m * m ≤ Ts := by
  unfold modScale
  split_ifs with h
  · rwa [one_mul]
  · rw [div_mul_cancel₀ _ (hTs.trans (not_le.mp h)).ne']

omit [Field K] [IsStrictOrderedRing K] in
theorem max3_rotate (a b c : K) : max3 b c a = max3 a b c := by
  rw [max3, max3, ← max_assoc, max_comm]

omit [Field K] [IsStrictOrderedRing K] in
theorem min3_rotate (a b c : K) : min3 b c a = min3 a b c := by
  rw [min3, min3, ← min_assoc, min_comm]

omit [Field K] [IsStrictOrderedRing K] in
theorem max3_reverse (a b c : K) : max3 c b a = max3 a b c := by
  rw [max3, max3, max_left_comm, max_comm c, max_left_comm]

omit [Field K] [IsStrictOrderedRing K] in
theorem min3_reverse (a b c : K) : min3 c b a = min3 a b c := by
  rw [min3, min3, min_left_comm, min_comm c, min_left_comm]

theorem max3_add_const (a b c d : K) : max3 (a + d) (b + d) (c + d) = max3 a b c + d := by
  simp only [max3, max_add_add_right]

theorem min3_add_const (a b c d : K) : min3 (a + d) (b + d) (c + d) = min3 a b c + d := by
  simp only [min3, min_add_add_right]

/-- Of three numbers with sum zero, the largest is as large as the other two together. -/
theorem max3_abs_eq_half {a b c : K} (h : a + b + c = 0) :
    max3 |a| |b| |c| = (|a| + |b| + |c|) / 2 := by
  rcases le_total 0 a with ha | ha <;> rcases le_total 0 b with hb | hb <;>
    rcases le_total 0 c with hc | hc <;>
    simp only [abs_of_nonneg, abs_of_nonpos, ha, hb, hc, max3] <;>
    apply le_antisymm <;>
    first
    | exact max_le (by linarith) (max_le (by linarith) (by linarith))
    | exact le_max_of_le_left (by linarith)
    | exact le_max_of_le_right (le_max_of_le_left (by linarith))
    | exact le_max_of_le_right (le_max_of_le_right (by linarith))

namespace MinMaxModulated

variable {Ts ab bc ca Ta Tb Tc : K}

omit [IsStrictOrderedRing K] in
theorem rotate (h : MinMaxModulated Ts ab bc ca Ta Tb Tc) :
    MinMaxModulated Ts bc ca ab Tb Tc Ta :=
  ⟨h.bc, h.ca, h.ab, by rw [max3_rotate, min3_rotate, h.centred]⟩

omit [IsStrictOrderedRing K] in
theorem reverse (h : MinMaxModulated Ts ab bc ca Ta Tb Tc) :
    MinMaxModulated Ts (-bc) (-ab) (-ca) Tc Tb Ta :=
  ⟨by rw [← h.bc, neg_sub], by rw [← h.ab, neg_sub], by rw [← h.ca, neg_sub],
    by rw [max3_reverse, min3_reverse, h.centred]⟩

/-- Two adjacent vectors for `x` and `y` and half of the remaining time: the pattern of
one sector. -/
theorem of_sector {x y : K} (hx : 0 ≤ x) (hy : 0 ≤ y) :
    MinMaxModulated Ts x y (-(x + y)) (x + y + (Ts - x - y) / 2) (y + (Ts - x - y) / 2)
      ((Ts - x - y) / 2) := by
  refine ⟨by ring, by ring, by ring, ?_⟩
  have hmid : (Ts - x - y) / 2 ≤ y + (Ts - x - y) / 2 := by linarith
  have htop : y + (Ts - x - y) / 2 ≤ x + y + (Ts - x - y) / 2 := by linarith
  rw [max3, min3, max_eq_left hmid, max_eq_left htop, min_eq_right hmid,
    min_eq_right (hmid.trans htop)]
  ring

/-- The line-to-line duties and the centring leave no freedom. -/
theorem unique {Ta' Tb' Tc' : K} (h : MinMaxModulated Ts ab bc ca Ta Tb Tc)
    (h' : MinMaxModulated Ts ab bc ca Ta' Tb' Tc') : Ta = Ta' ∧ Tb = Tb' ∧ Tc = Tc' := by
  obtain ⟨d, hd⟩ : ∃ d, Ta' = Ta + d := ⟨Ta' - Ta, by ring⟩
  have hb : Tb' = Tb + d := by linarith [h.ab, h'.ab]
  have hc : Tc' = Tc + d := by linarith [h.ca, h'.ca]
  have hcen := h'.centred
  rw [hd, hb, hc, max3_add_const, min3_add_const] at hcen
  have h0 : d = 0 := by linarith [h.centred]
  exact ⟨by rw [hd, h0, add_zero], by rw [hb, h0, add_zero], by rw [hc, h0, add_zero]⟩

omit [IsStrictOrderedRing K] in
/-- Equal on-times are exactly the zero line-to-line command. -/
theorem eq_iff (h : MinMaxModulated Ts ab bc ca Ta Tb Tc) :
    (Ta = Tb ∧ Tb = Tc) ↔ (ab = 0 ∧ bc = 0) := by
  rw [← h.ab, ← h.bc, sub_eq_zero, sub_eq_zero]

/-- Line-to-line duties within the period keep every on-time within it. -/
theorem mem_period (h : MinMaxModulated Ts ab bc ca Ta Tb Tc)
    (hab : |ab| ≤ Ts) (hbc : |bc| ≤ Ts) (hca : |ca| ≤ Ts) :
    (0 ≤ Ta ∧ Ta ≤ Ts) ∧ (0 ≤ Tb ∧ Tb ≤ Ts) ∧ (0 ≤ Tc ∧ Tc ≤ Ts) := by
  rw [← h.ab, abs_le] at hab
  rw [← h.bc, abs_le] at hbc
  rw [← h.ca, abs_le] at hca
  have hcen := h.centred
  simp only [max3, min3] at hcen
  -- in each order of the three on-times the centring equation names the extremes
  rcases le_total Ta Tb with h1 | h1 <;> rcases le_total Tb Tc with h2 | h2 <;>
    rcases le_total Ta Tc with h3 | h3 <;>
    simp only [h1, h2, h3, max_eq_left, max_eq_right, min_eq_left, min_eq_right] at hcen <;>
    refine ⟨⟨?_, ?_⟩, ⟨?_, ?_⟩, ?_, ?_⟩ <;> linarith

/-- Phase voltage (leg voltage minus the mean of the legs) from line-to-line duties. -/
theorem phase_a (h : MinMaxModulated Ts ab bc ca Ta Tb Tc) (U : K) :
    U * Ta - (U * Ta + U * Tb + U * Tc) / 3 = U * (ab - ca) / 3 := by
  rw [← h.ab, ← h.ca]; ring

theorem phase_b (h : MinMaxModulated Ts ab bc ca Ta Tb Tc) (U : K) :
    U * Tb - (U * Ta + U * Tb + U * Tc) / 3 = U * (bc - ab) / 3 := by
  rw [← h.bc, ← h.ab]; ring

end MinMaxModulated

end ControlLib
