import At32Foc.SingleMotor

/-!
# Averaging in `first_get`

`first_get` adds sixteen readings of each phase in a `uint16_t` and shifts the sums by
four.  Sixteen 12-bit readings add up to at most 65520, so no addition wraps
(`firstGetLoop_sums`), and the offsets are the means of the readings, rounded down
(`firstGet_offsets`).
-/

namespace At32Foc

open Finset

/-! ## Sums and means -/

/-- Some value is at most the rounded mean, some at least. -/
theorem exists_le_mean {n : ℕ} (hn : 0 < n) (s : ℕ → ℕ) :
    (∃ j < n, s j ≤ (∑ k ∈ range n, s k) / n) ∧ ∃ j < n, (∑ k ∈ range n, s k) / n ≤ s j := by
  generalize hS : ∑ k ∈ range n, s k = S
  have hconst : ∀ v, ∑ _k ∈ range n, v = n * v := by simp
  constructor
  · have hlt : ∑ k ∈ range n, s k < ∑ _k ∈ range n, (S / n + 1) := by
      rw [hconst, hS]
      exact Nat.lt_mul_div_succ S hn
    obtain ⟨j, hj, h⟩ := exists_lt_of_sum_lt hlt
    exact ⟨j, mem_range.mp hj, Nat.lt_succ_iff.mp h⟩
  · have hle : ∑ _k ∈ range n, S / n ≤ ∑ k ∈ range n, s k := by
      rw [hconst, hS]
      exact Nat.mul_div_le S n
    obtain ⟨j, hj, h⟩ := exists_le_of_sum_le (nonempty_range_iff.mpr hn.ne') hle
    exact ⟨j, mem_range.mp hj, h⟩

theorem sum_range_le {n b : ℕ} {s : ℕ → ℕ} (h : ∀ k < n, s k ≤ b) : ∑ k ∈ range n, s k ≤ n * b := by
  simpa using sum_le_card_nsmul (range n) s b fun k hk => h k (mem_range.mp hk)

/-- An addition that fits is the addition of the values. -/
theorem toNat_add_of_le {a b : UInt16} {v : ℕ} (h : a.toNat + b.toNat ≤ v) (hv : v ≤ 65520) :
    (a + b).toNat = a.toNat + b.toNat := by
  rw [UInt16.toNat_add]
  omega

/-! ## The accumulators -/

section Readings

variable {m : Motor} {hw : ℕ → Inputs}

/-- The readings of phase A, `AD_Value[1]` of the motor's buffer. -/
def samplesA (m : Motor) (hw : ℕ → Inputs) (k : ℕ) : ℕ := ((hw k).ad m).ad1.toNat

/-- The readings of phase B, `AD_Value[0]`. -/
def samplesB (m : Motor) (hw : ℕ → Inputs) (k : ℕ) : ℕ := ((hw k).ad m).ad0.toNat

/-- The first sixteen readings of both phases fit the 12-bit converter. -/
def TwelveBit (m : Motor) (hw : ℕ → Inputs) : Prop :=
  ∀ k < 16, samplesA m hw k ≤ 4095 ∧ samplesB m hw k ≤ 4095

variable (h : TwelveBit m hw)

include h

/-- After `n` iterations each accumulator holds the sum of its own phase. -/
theorem firstGetLoop_sums {c : CurrentState} (hm : c.Mflag = m.flag)
    (h0 : c.adA = 0 ∧ c.adB = 0) (n : ℕ) (hn : n ≤ 16) :
    (firstGetLoop hw n c).adA.toNat = ∑ k ∈ range n, samplesA m hw k ∧
      (firstGetLoop hw n c).adB.toNat = ∑ k ∈ range n, samplesB m hw k := by
  induction n with
  | zero =>
    have hz : firstGetLoop hw 0 c = c := rfl
    rw [hz, h0.1, h0.2]
    simp
  | succ n ih =>
    obtain ⟨iha, ihb⟩ := ih (by omega)
    have hA := sum_range_le (n := n + 1) fun k hk => (h k (by omega)).1
    have hB := sum_range_le (n := n + 1) fun k hk => (h k (by omega)).2
    rw [firstGetLoop_succ, firstGetStep_eq (hw n) ((firstGetLoop_Mflag hw n c).trans hm)]
    rw [sum_range_succ, ← iha] at hA
    rw [sum_range_succ, ← ihb] at hB
    rw [sum_range_succ, sum_range_succ, ← iha, ← ihb]
    exact ⟨toNat_add_of_le hA (by omega), toNat_add_of_le hB (by omega)⟩

/-- What `first_get` stores: sums shifted by four. -/
theorem firstGetCurrent_offsets {c : CurrentState} (hm : c.Mflag = m.flag) :
    (firstGetCurrent hw c).voltageAOffset.toNat = (∑ k ∈ range 16, samplesA m hw k) / 16 ∧
      (firstGetCurrent hw c).voltageBOffset.toNat = (∑ k ∈ range 16, samplesB m hw k) / 16 := by
  obtain ⟨ha, hb⟩ := firstGetLoop_sums h (c := { c with adB := 0, adA := 0 }) hm ⟨rfl, rfl⟩ 16
    le_rfl
  rw [← ha, ← hb]
  constructor
  · exact Nat.shiftRight_eq_div_pow _ 4
  · exact Nat.shiftRight_eq_div_pow _ 4

/-- An offset is a 12-bit value itself. -/
theorem firstGetCurrent_offset_le {c : CurrentState} (hm : c.Mflag = m.flag) :
    (firstGetCurrent hw c).voltageAOffset.toNat ≤ 4095 := by
  have hsum := sum_range_le fun k hk => (h k hk).1
  rw [(firstGetCurrent_offsets h hm).1]
  omega

end Readings

/-! ## Result -/

/-- **Offset averaging.**  No accumulator wraps in any iteration, and each offset is the
rounded mean of the readings of its own phase, between two of them. -/
theorem firstGet_offsets (m : Motor) (hw : ℕ → Inputs) (pFOC : FOCState ℚ)
    (hm : pFOC.current.Mflag = m.flag) (h : TwelveBit m hw) :
    (∀ n ≤ 16,
      let c := firstGetLoop hw n { pFOC.current with adB := 0, adA := 0 }
      c.adA.toNat = ∑ k ∈ range n, samplesA m hw k ∧
        c.adB.toNat = ∑ k ∈ range n, samplesB m hw k) ∧
    let r := (firstGet hw pFOC).current
    (r.voltageAOffset.toNat = (∑ k ∈ range 16, samplesA m hw k) / 16 ∧
      (∃ j < 16, samplesA m hw j ≤ r.voltageAOffset.toNat) ∧
      ∃ j < 16, r.voltageAOffset.toNat ≤ samplesA m hw j) ∧
    r.voltageBOffset.toNat = (∑ k ∈ range 16, samplesB m hw k) / 16 ∧
      (∃ j < 16, samplesB m hw j ≤ r.voltageBOffset.toNat) ∧
      ∃ j < 16, r.voltageBOffset.toNat ≤ samplesB m hw j := by
  refine ⟨firstGetLoop_sums h (c := { pFOC.current with adB := 0, adA := 0 }) hm ⟨rfl, rfl⟩, ?_⟩
  obtain ⟨ha, hb⟩ := firstGetCurrent_offsets h hm
  have hA := exists_le_mean (n := 16) (by norm_num) (samplesA m hw)
  have hB := exists_le_mean (n := 16) (by norm_num) (samplesB m hw)
  rw [← ha] at hA
  rw [← hb] at hB
  exact ⟨⟨ha, hA⟩, hb, hB⟩

/-- The largest readings, on the second motor. -/
theorem firstGet_offsets_full :
    (firstGet (fun _ => .both ⟨4095, 4095⟩ 0) Motor_2).current.voltageAOffset.toNat =
      (∑ k ∈ range 16, samplesA .M2 (fun _ => .both ⟨4095, 4095⟩ 0) k) / 16 :=
  (firstGet_offsets .M2 (fun _ => .both ⟨4095, 4095⟩ 0) Motor_2 rfl
    fun _ _ => ⟨le_rfl, le_rfl⟩).2.1.1

end At32Foc
