import Mathlib.Data.BitVec

/-!
# Bit fields of a register

A field of a register of `n` bits is `w` consecutive bits from bit `lo`.  `getField` reads
it, `setField` replaces it and keeps all other bits (`getLsbD_setField`): what was written is
read back (`getField_setField`), and a field elsewhere reads as before
(`getField_setField_of_disjoint`).
-/

namespace ControlLib

variable {n w w' : ℕ}

def getField (lo w : ℕ) (x : BitVec n) : BitVec w := x.extractLsb' lo w

def setField (lo : ℕ) (v : BitVec w) (x : BitVec n) : BitVec n :=
  x &&& ~~~((BitVec.allOnes w).setWidth n <<< lo) ||| v.setWidth n <<< lo

theorem getLsbD_getField (lo w : ℕ) (x : BitVec n) (i : ℕ) :
    (getField lo w x).getLsbD i = (decide (i < w) && x.getLsbD (lo + i)) :=
  BitVec.getLsbD_extractLsb' lo w x i

/-- Inside the field the new bits, outside it the old ones. -/
theorem getLsbD_setField {lo : ℕ} (h : lo + w ≤ n) (v : BitVec w) (x : BitVec n) (i : ℕ) :
    (setField lo v x).getLsbD i =
      if lo ≤ i ∧ i < lo + w then v.getLsbD (i - lo) else x.getLsbD i := by
  have hw : w ≤ i - lo → v.getLsbD (i - lo) = false := BitVec.getLsbD_of_ge v (i - lo)
  by_cases hn : i < n
  · simp only [setField, BitVec.getLsbD_or, BitVec.getLsbD_and, BitVec.getLsbD_not,
      BitVec.getLsbD_shiftLeft, BitVec.getLsbD_setWidth, BitVec.getLsbD_allOnes, hn, decide_true,
      Bool.true_and]
    by_cases hlo : i < lo
    · simp [hlo, not_le.mpr hlo]
    · have hsub : i - lo < n := by omega
      by_cases hhi : i < lo + w
      · have hlt : i - lo < w := by omega
        simp [hlo, hhi, hsub, hlt, not_lt.mp hlo]
      · have hge : ¬i - lo < w := by omega
        simp [hlo, hhi, hsub, hge, hw (not_lt.mp hge)]
  · have hout : ¬(lo ≤ i ∧ i < lo + w) := by omega
    rw [if_neg hout, BitVec.getLsbD_of_ge _ i (by omega), BitVec.getLsbD_of_ge x i (by omega)]

theorem getField_setField {lo : ℕ} (h : lo + w ≤ n) (v : BitVec w) (x : BitVec n) :
    getField lo w (setField lo v x) = v := by
  refine BitVec.eq_of_getLsbD_eq fun i hi => ?_
  rw [getLsbD_getField, getLsbD_setField h, if_pos (by omega), Nat.add_sub_cancel_left]
  simp [hi]

theorem getField_setField_of_disjoint {lo lo' : ℕ} (h : lo + w ≤ n)
    (hd : lo + w ≤ lo' ∨ lo' + w' ≤ lo) (v : BitVec w) (x : BitVec n) :
    getField lo' w' (setField lo v x) = getField lo' w' x := by
  refine BitVec.eq_of_getLsbD_eq fun i hi => ?_
  rw [getLsbD_getField, getLsbD_getField, getLsbD_setField h, if_neg (by omega)]

theorem getField_or (lo w : ℕ) (x y : BitVec n) :
    getField lo w (x ||| y) = getField lo w x ||| getField lo w y :=
  BitVec.extractLsb'_or

theorem getField_and (lo w : ℕ) (x y : BitVec n) :
    getField lo w (x &&& y) = getField lo w x &&& getField lo w y :=
  BitVec.extractLsb'_and

/-- A shifted number has its bits at and above the shift. -/
theorem getField_shiftLeft {k lo : ℕ} (h : lo + w ≤ n) (hk : k ≤ lo) (x : BitVec n) :
    getField lo w (x <<< k) = getField (lo - k) w x := by
  refine BitVec.eq_of_getLsbD_eq fun i hi => ?_
  rw [getLsbD_getField, getLsbD_getField, BitVec.getLsbD_shiftLeft]
  have hn : lo + i < n := by omega
  have hlo : ¬lo + i < k := by omega
  have hsub : lo + i - k = lo - k + i := by omega
  simp [hn, hlo, hsub]

theorem getField_shiftLeft_of_le {k lo : ℕ} (hk : lo + w ≤ k) (x : BitVec n) :
    getField lo w (x <<< k) = 0 := by
  refine BitVec.eq_of_getLsbD_eq fun i hi => ?_
  have hlt : lo + i < k := by omega
  rw [getLsbD_getField, BitVec.getLsbD_shiftLeft]
  simp [hlt]

/-- A number stored at a field, read there and elsewhere. -/
theorem getField_setWidth_shiftLeft {k : ℕ} (h : k + w ≤ n) (v : BitVec w) :
    getField k w (v.setWidth n <<< k) = v := by
  rw [getField_shiftLeft h le_rfl]
  refine BitVec.eq_of_getLsbD_eq fun i hi => ?_
  have hn : i < n := by omega
  rw [getLsbD_getField, Nat.sub_self, Nat.zero_add, BitVec.getLsbD_setWidth]
  simp [hi, hn]

theorem getField_setWidth_shiftLeft_of_disjoint {k lo : ℕ} (h : lo + w' ≤ n)
    (hd : k + w ≤ lo ∨ lo + w' ≤ k) (v : BitVec w) :
    getField lo w' (v.setWidth n <<< k) = 0 := by
  rcases hd with hd | hd
  · rw [getField_shiftLeft h (by omega)]
    refine BitVec.eq_of_getLsbD_eq fun i hi => ?_
    have hout : v.getLsbD (lo - k + i) = false := BitVec.getLsbD_of_ge v _ (by omega)
    rw [getLsbD_getField, BitVec.getLsbD_setWidth, hout]
    simp
  · exact getField_shiftLeft_of_le hd _

/-- Two adjacent fields determine the field they make up. -/
theorem getField_eq_of_parts {lo w₁ w₂ : ℕ} {x y : BitVec n}
    (h₁ : getField lo w₁ x = getField lo w₁ y)
    (h₂ : getField (lo + w₁) w₂ x = getField (lo + w₁) w₂ y) :
    getField lo (w₁ + w₂) x = getField lo (w₁ + w₂) y := by
  refine BitVec.eq_of_getLsbD_eq fun i hi => ?_
  rw [getLsbD_getField, getLsbD_getField]
  by_cases hlt : i < w₁
  · have hbit := congrArg (fun v => v.getLsbD i) h₁
    simp only [getLsbD_getField, hlt, decide_true, Bool.true_and] at hbit
    rw [hbit]
  · have hbit := congrArg (fun v => v.getLsbD (i - w₁)) h₂
    have hw : i - w₁ < w₂ := by omega
    have hadd : lo + w₁ + (i - w₁) = lo + i := by omega
    simp only [getLsbD_getField, hw, hadd, decide_true, Bool.true_and] at hbit
    rw [hbit]

/-- A field as a number. -/
theorem getField_toNat (lo w : ℕ) (x : BitVec n) :
    (getField lo w x).toNat = x.toNat / 2 ^ lo % 2 ^ w := by
  rw [getField, BitVec.extractLsb'_toNat, Nat.shiftRight_eq_div_pow]

end ControlLib
