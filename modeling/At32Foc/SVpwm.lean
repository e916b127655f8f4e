import At32Foc.Lib.Modulation
import At32Foc.Lib.Run
import At32Foc.FocState

/-!
# `SVpwm`: six sectors, one formula

`svpwm` is the space-vector modulator of `SVPWM.c`.  For every nonzero command it
realises the centred (min-max) modulation of its line-to-line command
(`u2`, `u1`, `u3`), scaled down when it exceeds the period:

    0 < Ts → (U_alpha, U_beta) ≠ (0, 0) →
      MinMaxModulated Ts (k * u2) (k * u1) (k * u3) Ta Tb Tc            (svpwm_modulated)

so the duties do not depend on the state before the call and stay within the
period.  The zero command selects sector 0, for which the switch has no case: the
duties of the previous call remain (`svpwm_zero_duties`).
-/

namespace At32Foc

open ControlLib

/-! ## Algorithm -/

/-- The times of the two vectors of a sector, their `sum`, the scale `k_svpwm` and the
time of the zero vector. -/
structure VectorTimes where
  ta : ℚ
  tb : ℚ
  sum : ℚ
  k : ℚ
  t7 : ℚ

/-- The part every sector shares: over-modulation and the zero vector.  `k` is the scale
of an earlier call, kept when there is no over-modulation. -/
def vectorTimes (Ts k ta tb : ℚ) : VectorTimes :=
  let sum := ta + tb
  if sum > Ts then
    let k := Ts / sum
    ⟨ta * k, tb * k, sum, k, (Ts - ta * k - tb * k) / 2⟩
  else ⟨ta, tb, sum, k, (Ts - ta - tb) / 2⟩

/-- `K`, `u1`, `u2`, `u3` and `sector`. -/
def svpwmProject (s : SVpwmState) (Ualpha Ubeta : ℚ) : SVpwmState :=
  let K := SQRT3 * s.Ts / UDC
  let u1 := Ubeta * K
  let u2 := (SQRT3_2 * Ualpha - _1_2 * Ubeta) * K
  let u3 := (-SQRT3_2 * Ualpha - _1_2 * Ubeta) * K
  let sector := (if u1 > 0 then 1 else 0) + ((if u2 > 0 then 1 else 0) <<< 1) +
    ((if u3 > 0 then 1 else 0) <<< 2)
  { s with K := K, u1 := u1, u2 := u2, u3 := u3, sector := sector }

/-- The switch over the sectors. -/
def svpwmSwitch (s : SVpwmState) : SVpwmState :=
  match s.sector with
  | 3 =>
    let v := vectorTimes s.Ts s.kSvpwm s.u2 s.u1
    { s with t4 := v.ta, t6 := v.tb, sum := v.sum, kSvpwm := v.k, t7 := v.t7,
             Ta := v.ta + v.tb + v.t7, Tb := v.tb + v.t7, Tc := v.t7 }
  | 1 =>
    let v := vectorTimes s.Ts s.kSvpwm (-s.u2) (-s.u3)
    { s with t2 := v.ta, t6 := v.tb, sum := v.sum, kSvpwm := v.k, t7 := v.t7,
             Ta := v.tb + v.t7, Tb := v.ta + v.tb + v.t7, Tc := v.t7 }
  | 5 =>
    let v := vectorTimes s.Ts s.kSvpwm s.u1 s.u3
    { s with t2 := v.ta, t3 := v.tb, sum := v.sum, kSvpwm := v.k, t7 := v.t7,
             Ta := v.t7, Tb := v.ta + v.tb + v.t7, Tc := v.tb + v.t7 }
  | 4 =>
    let v := vectorTimes s.Ts s.kSvpwm (-s.u1) (-s.u2)
    { s with t1 := v.ta, t3 := v.tb, sum := v.sum, kSvpwm := v.k, t7 := v.t7,
             Ta := v.t7, Tb := v.tb + v.t7, Tc := v.ta + v.tb + v.t7 }
  | 6 =>
    let v := vectorTimes s.Ts s.kSvpwm s.u3 s.u2
    { s with t1 := v.ta, t5 := v.tb, sum := v.sum, kSvpwm := v.k, t7 := v.t7,
             Ta := v.tb + v.t7, Tb := v.t7, Tc := v.ta + v.tb + v.t7 }
  | 2 =>
    let v := vectorTimes s.Ts s.kSvpwm (-s.u3) (-s.u1)
    { s with t4 := v.ta, t5 := v.tb, sum := v.sum, kSvpwm := v.k, t7 := v.t7,
             Ta := v.ta + v.tb + v.t7, Tb := v.t7, Tc := v.tb + v.t7 }
  | _ => s

def svpwm (s : SVpwmState) (Ualpha Ubeta : ℚ) : SVpwmState :=
  svpwmSwitch (svpwmProject s Ualpha Ubeta)

/-- The duty outputs. -/
def SVpwmState.duties (s : SVpwmState) : ℚ × ℚ × ℚ := (s.Ta, s.Tb, s.Tc)

/-! ## The line-to-line command -/

theorem vectorTimes_of_le {Ts ta tb : ℚ} (k : ℚ) (h : ta + tb ≤ Ts) :
    vectorTimes Ts k ta tb = ⟨ta, tb, ta + tb, k, (Ts - ta - tb) / 2⟩ := if_neg (not_lt.mpr h)

theorem vectorTimes_of_lt {Ts ta tb : ℚ} (k : ℚ) (h : Ts < ta + tb) :
    vectorTimes Ts k ta tb = ⟨ta * (Ts / (ta + tb)), tb * (Ts / (ta + tb)), ta + tb, Ts / (ta + tb),
      (Ts - ta * (Ts / (ta + tb)) - tb * (Ts / (ta + tb))) / 2⟩ := if_pos h

/-- The vector times of a sector are its command scaled by `modScale`. -/
theorem vectorTimes_scaled (Ts k ta tb : ℚ) :
    let v := vectorTimes Ts k ta tb
    v.ta = modScale Ts (ta + tb) * ta ∧ v.tb = modScale Ts (ta + tb) * tb ∧
      v.t7 = (Ts - v.ta - v.tb) / 2 := by
  intro v
  rcases le_or_gt (ta + tb) Ts with h | h
  · have hv : v = _ := vectorTimes_of_le k h
    rw [hv, modScale_of_le h]
    exact ⟨(one_mul ta).symm, (one_mul tb).symm, rfl⟩
  · have hv : v = _ := vectorTimes_of_lt k h
    rw [hv, modScale, if_neg (not_le.mpr h)]
    exact ⟨mul_comm _ _, mul_comm _ _, rfl⟩

/-- One sector: the pattern of two adjacent vectors for the command `ta`, `tb`. -/
theorem vectorTimes_modulated {Ts ta tb : ℚ} (k : ℚ) (hTs : 0 < Ts) (ha : 0 ≤ ta) (hb : 0 ≤ tb) :
    let v := vectorTimes Ts k ta tb
    MinMaxModulated Ts (modScale Ts (ta + tb) * ta) (modScale Ts (ta + tb) * tb)
      (-(modScale Ts (ta + tb) * ta + modScale Ts (ta + tb) * tb))
      (v.ta + v.tb + v.t7) (v.tb + v.t7) v.t7 := by
  intro v
  obtain ⟨h1, h2, h3⟩ := vectorTimes_scaled Ts k ta tb
  have hk := modScale_pos (m := ta + tb) hTs
  rw [h3, h1, h2]
  exact MinMaxModulated.of_sector (mul_nonneg hk.le ha) (mul_nonneg hk.le hb)

section Project

variable (s : SVpwmState) (Ualpha Ubeta : ℚ)

theorem svpwmProject_sum : (svpwmProject s Ualpha Ubeta).u1 + (svpwmProject s Ualpha Ubeta).u2 +
    (svpwmProject s Ualpha Ubeta).u3 = 0 := by
  simp only [svpwmProject, _1_2]
  ring

theorem svpwmProject_sector : (svpwmProject s Ualpha Ubeta).sector =
    (if (svpwmProject s Ualpha Ubeta).u1 > 0 then 1 else 0) +
      ((if (svpwmProject s Ualpha Ubeta).u2 > 0 then 1 else 0) <<< 1) +
      ((if (svpwmProject s Ualpha Ubeta).u3 > 0 then 1 else 0) <<< 2) := rfl

/-- The line-to-line command vanishes only for the zero vector. -/
theorem svpwmProject_eq_zero (hTs : 0 < s.Ts)
    (h : (svpwmProject s Ualpha Ubeta).u1 = 0 ∧ (svpwmProject s Ualpha Ubeta).u2 = 0) :
    Ualpha = 0 ∧ Ubeta = 0 := by
  obtain ⟨h1, h2⟩ := h
  have hK : (0 : ℚ) < SQRT3 * s.Ts / UDC := by
    have : (0 : ℚ) < SQRT3 / UDC := by norm_num [SQRT3, UDC]
    calc (0 : ℚ) < SQRT3 / UDC * s.Ts := mul_pos this hTs
      _ = SQRT3 * s.Ts / UDC := by ring
  have hb : Ubeta = 0 := (mul_eq_zero.mp h1).resolve_right hK.ne'
  have ha : SQRT3_2 * Ualpha - _1_2 * Ubeta = 0 := (mul_eq_zero.mp h2).resolve_right hK.ne'
  rw [hb, mul_zero, sub_zero] at ha
  exact ⟨(mul_eq_zero.mp ha).resolve_left (by norm_num [SQRT3_2]), hb⟩

end Project

/-! ## The six sectors -/

/-- The scale of the command of a state. -/
def SVpwmState.scale (s : SVpwmState) : ℚ := modScale s.Ts (max3 |s.u1| |s.u2| |s.u3|)

/-- What a call that is not the zero command leaves: a sector, and the duties of the
scaled line-to-line command. -/
structure SVpwmState.Modulated (s : SVpwmState) : Prop where
  sector : 1 ≤ s.sector ∧ s.sector ≤ 6
  duties : MinMaxModulated s.Ts (s.scale * s.u2) (s.scale * s.u1) (s.scale * s.u3) s.Ta s.Tb s.Tc

section Switch

variable {s : SVpwmState} (hTs : 0 < s.Ts) (hsum : s.u1 + s.u2 + s.u3 = 0)

include hTs hsum

/-- Sector 1 of the source (`case 3`): the legs in the order a, b, c. -/
theorem svpwmSwitch_three (hs : s.sector = 3) (h1 : 0 ≤ s.u1) (h2 : 0 ≤ s.u2) (h3 : s.u3 ≤ 0) :
    (svpwmSwitch s).Modulated := by
  have hm : max3 |s.u1| |s.u2| |s.u3| = s.u2 + s.u1 := by
    rw [max3_abs_eq_half hsum, abs_of_nonneg h1, abs_of_nonneg h2, abs_of_nonpos h3]; linarith
  have hd := vectorTimes_modulated s.kSvpwm hTs h2 h1
  unfold svpwmSwitch
  simp only [hs]
  refine ⟨by norm_num, ?_⟩
  simp only [SVpwmState.scale, hm]
  convert hd using 1
  linear_combination modScale s.Ts (s.u2 + s.u1) * hsum

/-- Sector 2 (`case 1`): the order b, a, c. -/
theorem svpwmSwitch_one (hs : s.sector = 1) (h1 : 0 ≤ s.u1) (h2 : s.u2 ≤ 0) (h3 : s.u3 ≤ 0) :
    (svpwmSwitch s).Modulated := by
  have hm : max3 |s.u1| |s.u2| |s.u3| = -s.u2 + -s.u3 := by
    rw [max3_abs_eq_half hsum, abs_of_nonneg h1, abs_of_nonpos h2, abs_of_nonpos h3]; linarith
  have hd := (vectorTimes_modulated s.kSvpwm hTs (neg_nonneg.mpr h2)
    (neg_nonneg.mpr h3)).reverse.rotate
  unfold svpwmSwitch
  simp only [hs]
  refine ⟨by norm_num, ?_⟩
  simp only [SVpwmState.scale, hm]
  convert hd using 1
  · ring
  · linear_combination modScale s.Ts (-s.u2 + -s.u3) * hsum
  · ring

/-- Sector 3 (`case 5`): the order b, c, a. -/
theorem svpwmSwitch_five (hs : s.sector = 5) (h1 : 0 ≤ s.u1) (h2 : s.u2 ≤ 0) (h3 : 0 ≤ s.u3) :
    (svpwmSwitch s).Modulated := by
  have hm : max3 |s.u1| |s.u2| |s.u3| = s.u1 + s.u3 := by
    rw [max3_abs_eq_half hsum, abs_of_nonneg h1, abs_of_nonpos h2, abs_of_nonneg h3]; linarith
  have hd := (vectorTimes_modulated s.kSvpwm hTs h1 h3).rotate.rotate
  unfold svpwmSwitch
  simp only [hs]
  refine ⟨by norm_num, ?_⟩
  simp only [SVpwmState.scale, hm]
  convert hd using 1
  linear_combination modScale s.Ts (s.u1 + s.u3) * hsum

/-- Sector 4 (`case 4`): the order c, b, a. -/
theorem svpwmSwitch_four (hs : s.sector = 4) (h1 : s.u1 ≤ 0) (h2 : s.u2 ≤ 0) (h3 : 0 ≤ s.u3) :
    (svpwmSwitch s).Modulated := by
  have hm : max3 |s.u1| |s.u2| |s.u3| = -s.u1 + -s.u2 := by
    rw [max3_abs_eq_half hsum, abs_of_nonpos h1, abs_of_nonpos h2, abs_of_nonneg h3]; linarith
  have hd := (vectorTimes_modulated s.kSvpwm hTs (neg_nonneg.mpr h1) (neg_nonneg.mpr h2)).reverse
  unfold svpwmSwitch
  simp only [hs]
  refine ⟨by norm_num, ?_⟩
  simp only [SVpwmState.scale, hm]
  convert hd using 1
  · ring
  · ring
  · linear_combination modScale s.Ts (-s.u1 + -s.u2) * hsum

/-- Sector 5 (`case 6`): the order c, a, b. -/
theorem svpwmSwitch_six (hs : s.sector = 6) (h1 : s.u1 ≤ 0) (h2 : 0 ≤ s.u2) (h3 : 0 ≤ s.u3) :
    (svpwmSwitch s).Modulated := by
  have hm : max3 |s.u1| |s.u2| |s.u3| = s.u3 + s.u2 := by
    rw [max3_abs_eq_half hsum, abs_of_nonpos h1, abs_of_nonneg h2, abs_of_nonneg h3]; linarith
  have hd := (vectorTimes_modulated s.kSvpwm hTs h3 h2).rotate
  unfold svpwmSwitch
  simp only [hs]
  refine ⟨by norm_num, ?_⟩
  simp only [SVpwmState.scale, hm]
  convert hd using 1
  linear_combination modScale s.Ts (s.u3 + s.u2) * hsum

/-- Sector 6 (`case 2`): the order a, c, b. -/
theorem svpwmSwitch_two (hs : s.sector = 2) (h1 : s.u1 ≤ 0) (h2 : 0 ≤ s.u2) (h3 : s.u3 ≤ 0) :
    (svpwmSwitch s).Modulated := by
  have hm : max3 |s.u1| |s.u2| |s.u3| = -s.u3 + -s.u1 := by
    rw [max3_abs_eq_half hsum, abs_of_nonpos h1, abs_of_nonneg h2, abs_of_nonpos h3]; linarith
  have hd := (vectorTimes_modulated s.kSvpwm hTs (neg_nonneg.mpr h3)
    (neg_nonneg.mpr h1)).reverse.rotate.rotate
  unfold svpwmSwitch
  simp only [hs]
  refine ⟨by norm_num, ?_⟩
  simp only [SVpwmState.scale, hm]
  convert hd using 1
  · linear_combination modScale s.Ts (-s.u3 + -s.u1) * hsum
  · ring
  · ring

end Switch

/-- The sector of a line-to-line command, with the signs it stands for. -/
inductive SVpwmState.InSector (s : SVpwmState) : Prop where
  | three (hs : s.sector = 3) (h1 : 0 ≤ s.u1) (h2 : 0 ≤ s.u2) (h3 : s.u3 ≤ 0)
  | one (hs : s.sector = 1) (h1 : 0 ≤ s.u1) (h2 : s.u2 ≤ 0) (h3 : s.u3 ≤ 0)
  | five (hs : s.sector = 5) (h1 : 0 ≤ s.u1) (h2 : s.u2 ≤ 0) (h3 : 0 ≤ s.u3)
  | four (hs : s.sector = 4) (h1 : s.u1 ≤ 0) (h2 : s.u2 ≤ 0) (h3 : 0 ≤ s.u3)
  | six (hs : s.sector = 6) (h1 : s.u1 ≤ 0) (h2 : 0 ≤ s.u2) (h3 : 0 ≤ s.u3)
  | two (hs : s.sector = 2) (h1 : s.u1 ≤ 0) (h2 : 0 ≤ s.u2) (h3 : s.u3 ≤ 0)

/-- Every nonzero command is in one of the six. -/
theorem svpwmProject_inSector (s : SVpwmState) (Ualpha Ubeta : ℚ) (hTs : 0 < s.Ts)
    (hU : ¬ (Ualpha = 0 ∧ Ubeta = 0)) : (svpwmProject s Ualpha Ubeta).InSector := by
  have hsum := svpwmProject_sum s Ualpha Ubeta
  have hsec := svpwmProject_sector s Ualpha Ubeta
  have hne := mt (svpwmProject_eq_zero s Ualpha Ubeta hTs) hU
  generalize svpwmProject s Ualpha Ubeta = p at *
  rcases lt_or_ge 0 p.u1 with h1 | h1 <;> rcases lt_or_ge 0 p.u2 with h2 | h2 <;>
    rcases lt_or_ge 0 p.u3 with h3 | h3 <;>
    simp only [gt_iff_lt, h1, h2, h3, not_lt.mpr, if_true, if_false] at hsec
  · exact absurd hsum (by linarith)
  · exact .three hsec h1.le h2.le h3
  · exact .five hsec h1.le h2 h3.le
  · exact .one hsec h1.le h2 h3
  · exact .six hsec h1 h2.le h3.le
  · exact .two hsec h1 h2.le h3
  · exact .four hsec h1 h2 h3.le
  · exact absurd ⟨by linarith, by linarith⟩ hne

/-- **All sectors.**  Every nonzero command is modulated. -/
theorem svpwm_modulated (s : SVpwmState) (Ualpha Ubeta : ℚ) (hTs : 0 < s.Ts)
    (hU : ¬ (Ualpha = 0 ∧ Ubeta = 0)) : (svpwm s Ualpha Ubeta).Modulated := by
  have hsum := svpwmProject_sum s Ualpha Ubeta
  have hTs' : 0 < (svpwmProject s Ualpha Ubeta).Ts := hTs
  cases svpwmProject_inSector s Ualpha Ubeta hTs hU with
  | three hs h1 h2 h3 => exact svpwmSwitch_three hTs' hsum hs h1 h2 h3
  | one hs h1 h2 h3 => exact svpwmSwitch_one hTs' hsum hs h1 h2 h3
  | five hs h1 h2 h3 => exact svpwmSwitch_five hTs' hsum hs h1 h2 h3
  | four hs h1 h2 h3 => exact svpwmSwitch_four hTs' hsum hs h1 h2 h3
  | six hs h1 h2 h3 => exact svpwmSwitch_six hTs' hsum hs h1 h2 h3
  | two hs h1 h2 h3 => exact svpwmSwitch_two hTs' hsum hs h1 h2 h3

/-- The switch writes vector times and duties only. -/
theorem svpwmSwitch_frame (s : SVpwmState) : (svpwmSwitch s).Ts = s.Ts ∧ (svpwmSwitch s).u1 = s.u1 ∧
    (svpwmSwitch s).u2 = s.u2 ∧ (svpwmSwitch s).u3 = s.u3 := by
  unfold svpwmSwitch
  split <;> exact ⟨rfl, rfl, rfl, rfl⟩

@[simp] theorem vectorTimes_sum (Ts k ta tb : ℚ) : (vectorTimes Ts k ta tb).sum = ta + tb := by
  unfold vectorTimes
  dsimp only
  split_ifs <;> rfl

/-- In every sector `sum` is the largest line-to-line command. -/
theorem svpwm_sum_eq_max3 (s : SVpwmState) (Ualpha Ubeta : ℚ) (hTs : 0 < s.Ts)
    (hU : ¬ (Ualpha = 0 ∧ Ubeta = 0)) :
    let r := svpwm s Ualpha Ubeta
    r.sum = max3 |r.u1| |r.u2| |r.u3| := by
  have hsum := svpwmProject_sum s Ualpha Ubeta
  have hsec := svpwmProject_inSector s Ualpha Ubeta hTs hU
  unfold svpwm
  generalize svpwmProject s Ualpha Ubeta = p at *
  obtain ⟨-, e1, e2, e3⟩ := svpwmSwitch_frame p
  intro r
  rw [e1, e2, e3, max3_abs_eq_half hsum]
  show (svpwmSwitch p).sum = _
  rcases hsec with ⟨hs, h1, h2, h3⟩ | ⟨hs, h1, h2, h3⟩ | ⟨hs, h1, h2, h3⟩ | ⟨hs, h1, h2, h3⟩ |
      ⟨hs, h1, h2, h3⟩ | ⟨hs, h1, h2, h3⟩ <;>
    simp only [svpwmSwitch, hs, vectorTimes_sum, abs_of_nonneg, abs_of_nonpos, h1, h2, h3] <;>
    linarith

/-- The zero command selects sector 0, and the switch writes no duty. -/
theorem svpwm_zero_duties (s : SVpwmState) : (svpwm s 0 0).duties = s.duties := by
  simp [svpwm, svpwmProject, svpwmSwitch, SVpwmState.duties]

section Frame

variable (s : SVpwmState) (Ualpha Ubeta : ℚ)

@[simp] theorem svpwm_Ts : (svpwm s Ualpha Ubeta).Ts = s.Ts := (svpwmSwitch_frame _).1

@[simp] theorem svpwm_u1 : (svpwm s Ualpha Ubeta).u1 = Ubeta * (SQRT3 * s.Ts / UDC) :=
  (svpwmSwitch_frame _).2.1

@[simp] theorem svpwm_u2 : (svpwm s Ualpha Ubeta).u2 =
    (SQRT3_2 * Ualpha - _1_2 * Ubeta) * (SQRT3 * s.Ts / UDC) :=
  (svpwmSwitch_frame _).2.2.1

@[simp] theorem svpwm_u3 : (svpwm s Ualpha Ubeta).u3 =
    (-SQRT3_2 * Ualpha - _1_2 * Ubeta) * (SQRT3 * s.Ts / UDC) :=
  (svpwmSwitch_frame _).2.2.2

theorem svpwm_sum : (svpwm s Ualpha Ubeta).u1 + (svpwm s Ualpha Ubeta).u2 +
    (svpwm s Ualpha Ubeta).u3 = 0 := by
  simp only [svpwm_u1, svpwm_u2, svpwm_u3, _1_2]
  ring

end Frame

/-! ## Results -/

/-- The largest line-to-line duty of the scaled command is within the period. -/
theorem SVpwmState.scale_mul_le {s : SVpwmState} (hTs : 0 < s.Ts) :
    |s.scale * s.u1| ≤ s.Ts ∧ |s.scale * s.u2| ≤ s.Ts ∧ |s.scale * s.u3| ≤ s.Ts := by
  have hk : 0 < s.scale := modScale_pos hTs
  have hle : s.scale * max3 |s.u1| |s.u2| |s.u3| ≤ s.Ts := modScale_mul_le hTs
  have step : ∀ u, |u| ≤ max3 |s.u1| |s.u2| |s.u3| → |s.scale * u| ≤ s.Ts := by
    intro u hu
    rw [abs_mul, abs_of_pos hk]
    exact (mul_le_mul_of_nonneg_left hu hk.le).trans hle
  exact ⟨step _ (le_max_left _ _), step _ (le_max_of_le_right (le_max_left _ _)),
    step _ (le_max_of_le_right (le_max_right _ _))⟩

/-- Every duty is within the period. -/
def SVpwmState.InPeriod (s : SVpwmState) : Prop :=
  0 < s.Ts ∧ (0 ≤ s.Ta ∧ s.Ta ≤ s.Ts) ∧ (0 ≤ s.Tb ∧ s.Tb ≤ s.Ts) ∧ (0 ≤ s.Tc ∧ s.Tc ≤ s.Ts)

/-- `svpwm` keeps the duties within the period; the zero command through the duties it
leaves alone. -/
theorem svpwm_inPeriod {s : SVpwmState} (h : s.InPeriod) (Ualpha Ubeta : ℚ) :
    (svpwm s Ualpha Ubeta).InPeriod := by
  obtain ⟨hTs, hdut⟩ := h
  have hTs' : 0 < (svpwm s Ualpha Ubeta).Ts := by rwa [svpwm_Ts]
  refine ⟨hTs', ?_⟩
  by_cases hU : Ualpha = 0 ∧ Ubeta = 0
  · obtain ⟨rfl, rfl⟩ := hU
    have e := svpwm_zero_duties s
    simp only [SVpwmState.duties, Prod.mk.injEq] at e
    rw [svpwm_Ts, e.1, e.2.1, e.2.2]
    exact hdut
  · obtain ⟨h1, h2, h3⟩ := SVpwmState.scale_mul_le hTs'
    exact (svpwm_modulated s Ualpha Ubeta hTs hU).duties.mem_period h2 h1 h3

/-- **Carrier-based min-max modulation.**  All six sector branches realise the same
formula. -/
theorem svpwm_eq_minMax (s : SVpwmState) (Ualpha Ubeta : ℚ) (hTs : 0 < s.Ts)
    (hU : (Ualpha, Ubeta) ≠ (0, 0)) :
    let r := svpwm s Ualpha Ubeta
    let m := max |r.u1| (max |r.u2| |r.u3|)
    let k := if m ≤ s.Ts then 1 else s.Ts / m
    let g := SQRT3 * s.Ts / UDC
    (r.u1 = Ubeta * g ∧ r.u2 = (SQRT3_2 * Ualpha - _1_2 * Ubeta) * g ∧
      r.u3 = (-SQRT3_2 * Ualpha - _1_2 * Ubeta) * g) ∧
    r.u1 + r.u2 + r.u3 = 0 ∧ (1 ≤ r.sector ∧ r.sector ≤ 6) ∧
      r.Ta - r.Tb = k * r.u2 ∧ r.Tb - r.Tc = k * r.u1 ∧ r.Tc - r.Ta = k * r.u3 ∧
      max r.Ta (max r.Tb r.Tc) + min r.Ta (min r.Tb r.Tc) = s.Ts := by
  intro r m k g
  have h : r.Modulated := svpwm_modulated s Ualpha Ubeta hTs (by simpa [Prod.ext_iff] using hU)
  have hr : r.Ts = s.Ts := svpwm_Ts s Ualpha Ubeta
  have hk : r.scale = k := by
    show modScale r.Ts m = k
    rw [hr]; rfl
  have hd := h.duties
  rw [hk, hr] at hd
  exact ⟨⟨svpwm_u1 s Ualpha Ubeta, svpwm_u2 s Ualpha Ubeta, svpwm_u3 s Ualpha Ubeta⟩,
    svpwm_sum s Ualpha Ubeta, h.sector, hd.ab, hd.bc, hd.ca, hd.centred⟩

theorem svpwm_eq_minMax_overmodulated :
    let r := svpwm svpwmInit 100 3
    r.sector = 3 ∧ svpwmInit.Ts < max |r.u1| (max |r.u2| |r.u3|) ∧
      r.Ta - r.Tb = svpwmInit.Ts / max |r.u1| (max |r.u2| |r.u3|) * r.u2 := by
  have h := svpwm_eq_minMax svpwmInit 100 3 (by norm_num [svpwmInit]) (by decide)
  have hm : svpwmInit.Ts < max |(svpwm svpwmInit 100 3).u1| (max |(svpwm svpwmInit 100 3).u2|
      |(svpwm svpwmInit 100 3).u3|) := by decide +kernel
  simp only [if_neg (not_le.mpr hm)] at h
  exact ⟨by decide +kernel, hm, h.2.2.2.1⟩

/-! ## History -/

/-- Away from the zero command the duties are a function of the command and `Ts`. -/
theorem svpwm_history_independent {s s' : SVpwmState} {Ualpha Ubeta : ℚ} (hTs : 0 < s.Ts)
    (hs : s'.Ts = s.Ts) (hU : ¬ (Ualpha = 0 ∧ Ubeta = 0)) :
    (svpwm s Ualpha Ubeta).duties = (svpwm s' Ualpha Ubeta).duties := by
  have h := (svpwm_modulated s Ualpha Ubeta hTs hU).duties
  have h' := (svpwm_modulated s' Ualpha Ubeta (hs.symm ▸ hTs) hU).duties
  simp only [SVpwmState.scale, svpwm_Ts, svpwm_u1, svpwm_u2, svpwm_u3, hs] at h h'
  obtain ⟨ha, hb, hc⟩ := h.unique h'
  simp only [SVpwmState.duties, ha, hb, hc]

/-- A nonzero command leaves a nonzero line-to-line duty. -/
theorem svpwm_not_level {s : SVpwmState} {Ualpha Ubeta : ℚ} (hTs : 0 < s.Ts)
    (hU : ¬ (Ualpha = 0 ∧ Ubeta = 0)) :
    ¬ ((svpwm s Ualpha Ubeta).Ta = (svpwm s Ualpha Ubeta).Tb ∧
      (svpwm s Ualpha Ubeta).Tb = (svpwm s Ualpha Ubeta).Tc) := by
  have hk : (svpwm s Ualpha Ubeta).scale ≠ 0 :=
    (modScale_pos (by rwa [svpwm_Ts])).ne'
  rw [(svpwm_modulated s Ualpha Ubeta hTs hU).duties.eq_iff, mul_eq_zero, mul_eq_zero,
    or_iff_right hk, or_iff_right hk]
  rintro ⟨h2, h1⟩
  rw [svpwm_u1] at h1
  rw [svpwm_u2] at h2
  exact hU (svpwmProject_eq_zero s Ualpha Ubeta hTs ⟨h1, h2⟩)

/-- Level duties: no line-to-line voltage. -/
def SVpwmState.Level (s : SVpwmState) : Prop := s.Ta = s.Tb ∧ s.Tb = s.Tc

/-- The commands of a run. -/
def svpwmRun (s : SVpwmState) (cmds : List (ℚ × ℚ)) : SVpwmState :=
  run (fun s c => svpwm s c.1 c.2) s cmds

theorem svpwmRun_Ts (s : SVpwmState) (cmds : List (ℚ × ℚ)) : (svpwmRun s cmds).Ts = s.Ts :=
  run_invariant (I := fun s' => s'.Ts = s.Ts) (fun s' c h => (svpwm_Ts s' c.1 c.2).trans h)
    cmds s rfl

/-- From level duties, a run ends level exactly when every command was zero: the induction
is on the last command, since a zero one passes the question on to the run before it. -/
theorem svpwmRun_level_iff {s : SVpwmState} (hTs : 0 < s.Ts) (hs : s.Level) (cmds : List (ℚ × ℚ)) :
    (svpwmRun s cmds).Level ↔ ∀ c ∈ cmds, c = (0, 0) := by
  induction cmds using List.reverseRecOn with
  | nil => exact ⟨fun _ c hc => absurd hc List.not_mem_nil, fun _ => hs⟩
  | append_singleton cmds c ih =>
    have hstep : svpwmRun s (cmds ++ [c]) = svpwm (svpwmRun s cmds) c.1 c.2 := by
      simp [svpwmRun]
    rw [hstep]
    by_cases hc : c = (0, 0)
    · have e := svpwm_zero_duties (svpwmRun s cmds)
      simp only [SVpwmState.duties, Prod.mk.injEq] at e
      simp only [hc, SVpwmState.Level, e.1, e.2.1, e.2.2]
      rw [← SVpwmState.Level, ih]
      simp +contextual [or_imp]
    · have hne : ¬ (c.1 = 0 ∧ c.2 = 0) := fun h => hc (Prod.ext h.1 h.2)
      have hnot := svpwm_not_level (s := svpwmRun s cmds) (by rwa [svpwmRun_Ts]) hne
      exact ⟨fun h => absurd h hnot, fun h => absurd (h c (by simp)) hc⟩

/-- **When the duties forget the past.**  A command erases the history exactly when it is
not zero, and a final zero command gives a zero line-to-line voltage exactly when no
earlier command gave another. -/
theorem svpwm_history_iff (Ts Ualpha Ubeta : ℚ) (hTs : 0 < Ts) :
    ((∀ s s' : SVpwmState, s.Ts = Ts → s'.Ts = Ts →
        (svpwm s Ualpha Ubeta).duties = (svpwm s' Ualpha Ubeta).duties) ↔
      (Ualpha, Ubeta) ≠ (0, 0)) ∧
    ∀ s : SVpwmState, s.Ts = Ts → s.Level → ∀ cmds : List (ℚ × ℚ),
      ((svpwmRun s (cmds ++ [(0, 0)])).Level ↔ ∀ c ∈ cmds, c = (0, 0)) := by
  refine ⟨⟨fun h => ?_, fun hU s s' hs hs' => ?_⟩, fun s hs hlev cmds => ?_⟩
  · rintro ⟨rfl, rfl⟩
    have h01 := h { svpwmInit with Ts := Ts } { svpwmInit with Ts := Ts, Ta := 1 } rfl rfl
    rw [svpwm_zero_duties, svpwm_zero_duties] at h01
    simp [SVpwmState.duties, svpwmInit] at h01
  · exact svpwm_history_independent (hs ▸ hTs) (hs'.trans hs.symm)
      (by simpa [Prod.ext_iff] using hU)
  · rw [svpwmRun_level_iff (hs ▸ hTs) hlev]
    simp +contextual [or_imp]

theorem svpwm_history_iff_boot : ¬ (svpwmRun svpwmInit ([(3, 0)] ++ [(0, 0)])).Level := by
  rw [(svpwm_history_iff 1 0 0 one_pos).2 svpwmInit (by norm_num [svpwmInit]) ⟨rfl, rfl⟩ [(3, 0)]]
  decide

/-- After the command `(3, 0)` the zero command keeps driving its vector, while from boot it
drives none. -/
theorem svpwm_zero_keeps_history :
    let s := svpwmInit
    let s' := svpwm svpwmInit 3 0
    s.Ts = s'.Ts ∧ 0 < s.Ts ∧ (svpwm s 0 0).duties ≠ (svpwm s' 0 0).duties ∧
      ¬ (svpwm s' 0 0).Level := by
  refine ⟨by decide +kernel, by decide +kernel, by decide +kernel, ?_⟩
  unfold SVpwmState.Level
  decide +kernel

end At32Foc
