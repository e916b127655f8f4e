import At32Foc.Lib.Run
import At32Foc.Lib.Circle
import At32Foc.Control

/-!
# Speed estimation

`CalculateSpeed` over a run of calls.  The encoder shows the position of the rotor
modulo one turn (`reduce`); the function wraps the difference of two readings, which
is `unwrapDiff` (`angleDiff_eq`).

* `abs_angleDiff_le`: two readings never differ by more than half a turn.
* `angleDiff_reduce`: a movement of less than half a turn is recovered exactly.
* `speed_recovers_movement`: so the raw speeds of a run add up to the movement of the
  rotor over any number of turns.
-/

namespace At32Foc

open ControlLib

/-- What the encoder shows at the position `p`. -/
def reduce (p : ℚ) : ℚ := wrap p _2PI

theorem calculateSpeed_eq (pFOC : FOCState ℚ) (dt : ℚ) (pSpeedFilter : LPFSpeed) :
    calculateSpeed pFOC dt pSpeedFilter =
      ({ pFOC with
          speed := (lpfSpeedUpdate pSpeedFilter (rawSpeed pFOC dt)).2
          speedLastAngle := pFOC.mechanicalAngle },
        (lpfSpeedUpdate pSpeedFilter (rawSpeed pFOC dt)).1) := rfl

/-! ## One difference -/

theorem angleDiff_eq (a b : ℚ) : angleDiff a b = unwrapDiff _2PI (a - b) := by
  have h1 : a - b > 3.14159 ↔ _2PI < a - b + (a - b) := by
    unfold _2PI
    constructor <;> intro h <;> linarith
  have h2 : a - b < -3.14159 ↔ a - b + (a - b) < -_2PI := by
    unfold _2PI
    constructor <;> intro h <;> linarith
  simp only [angleDiff, unwrapDiff, h1, h2]
  rfl

theorem abs_angleDiff_le {a b : ℚ} (ha : 0 ≤ a ∧ a < 6.28318) (hb : 0 ≤ b ∧ b < 6.28318) :
    |angleDiff a b| ≤ 3.14159 := by
  rw [angleDiff_eq]
  have h := abs_unwrapDiff_le (P := _2PI) ha hb
  norm_num [_2PI] at h ⊢
  exact h

theorem angleDiff_reduce {p q : ℚ} (h : |q - p| < 3.14159) :
    angleDiff (reduce q) (reduce p) = q - p := by
  rw [angleDiff_eq]
  refine unwrapDiff_wrap _2PI_pos ?_
  norm_num [_2PI] at h ⊢
  exact h

/-! ## Runs -/

section Runs

variable (dt : ℚ) (s : FOCState ℚ × LPFSpeed) (p : ℕ → ℚ)

/-- The record a call at the position `q` works on. -/
def withReading (s : FOCState ℚ × LPFSpeed) (q : ℚ) : FOCState ℚ :=
  { s.1 with mechanicalAngle := reduce q }

def speedCall (s : FOCState ℚ × LPFSpeed) (q : ℚ) : FOCState ℚ × LPFSpeed :=
  calculateSpeed (withReading s q) dt s.2

/-- After the first `i` calls, at the positions `p 1`, ..., `p i`. -/
def afterCalls (i : ℕ) : FOCState ℚ × LPFSpeed :=
  run (speedCall dt) s ((List.range i).map fun j => p (j + 1))

/-- The record call number `i` works on. -/
def atCall (i : ℕ) : FOCState ℚ := withReading (afterCalls dt s p i) (p (i + 1))

theorem afterCalls_succ (i : ℕ) :
    afterCalls dt s p (i + 1) = speedCall dt (afterCalls dt s p i) (p (i + 1)) := by
  simp only [afterCalls, List.range_succ, List.map_append, List.map_cons, List.map_nil,
    run_append, run_cons, run_nil]

variable {dt s p}

/-- Between calls the record holds the reading at the last position. -/
theorem afterCalls_speedLastAngle (h0 : s.1.speedLastAngle = reduce (p 0)) (i : ℕ) :
    (afterCalls dt s p i).1.speedLastAngle = reduce (p i) := by
  cases i with
  | zero => exact h0
  | succ i =>
    rw [afterCalls_succ, speedCall, calculateSpeed_eq]
    rfl

theorem angleDiff_atCall (h0 : s.1.speedLastAngle = reduce (p 0)) {i : ℕ}
    (h : |p (i + 1) - p i| < 3.14159) :
    angleDiff (atCall dt s p i).mechanicalAngle (atCall dt s p i).speedLastAngle =
      p (i + 1) - p i := by
  have hm : (atCall dt s p i).mechanicalAngle = reduce (p (i + 1)) := rfl
  have hl : (atCall dt s p i).speedLastAngle = reduce (p i) :=
    afterCalls_speedLastAngle h0 i
  rw [hm, hl]
  exact angleDiff_reduce h

end Runs

/-- **Unwrapping.**  Every call sees the movement since the last one, whatever the turn
the rotor is in, and the raw speeds add up to the whole movement; arbitrary readings
give a difference of at most half a turn. -/
theorem speed_recovers_movement (dt : ℚ) (hdt : dt ≠ 0) (s : FOCState ℚ × LPFSpeed) (p : ℕ → ℚ)
    (n : ℕ) (h0 : s.1.speedLastAngle = reduce (p 0))
    (hp : ∀ i < n, |p (i + 1) - p i| < 3.14159) :
    (∀ i < n, angleDiff (atCall dt s p i).mechanicalAngle (atCall dt s p i).speedLastAngle =
      p (i + 1) - p i) ∧
    ∑ i ∈ Finset.range n, rawSpeed (atCall dt s p i) dt * dt = p n - p 0 ∧
    ∀ a b : ℚ, 0 ≤ a ∧ a < 6.28318 → 0 ≤ b ∧ b < 6.28318 → |angleDiff a b| ≤ 3.14159 := by
  have hcall : ∀ i < n, angleDiff (atCall dt s p i).mechanicalAngle
      (atCall dt s p i).speedLastAngle = p (i + 1) - p i :=
    fun i hi => angleDiff_atCall h0 (hp i hi)
  refine ⟨hcall, ?_, fun a b ha hb => abs_angleDiff_le ha hb⟩
  calc ∑ i ∈ Finset.range n, rawSpeed (atCall dt s p i) dt * dt
      = ∑ i ∈ Finset.range n, (p (i + 1) - p i) := by
        refine Finset.sum_congr rfl fun i hi => ?_
        rw [rawSpeed, div_mul_cancel₀ _ hdt, hcall i (Finset.mem_range.mp hi)]
    _ = p n - p 0 := Finset.sum_range_sub p n

/-- Four thirds of a turn backwards and on, at the call rate of the firmware. -/
theorem speed_recovers_movement_backwards :
    let p : ℕ → ℚ := fun i => -3 * i
    let s : FOCState ℚ × LPFSpeed := (Motor_1, lpfSpeedInit ⟨⟨0, 0⟩⟩)
    (∀ i < 4, angleDiff (atCall 0.001 s p i).mechanicalAngle
      (atCall 0.001 s p i).speedLastAngle = p (i + 1) - p i) ∧
    ∑ i ∈ Finset.range 4, rawSpeed (atCall 0.001 s p i) 0.001 * 0.001 = p 4 - p 0 ∧
    ∀ a b : ℚ, 0 ≤ a ∧ a < 6.28318 → 0 ≤ b ∧ b < 6.28318 → |angleDiff a b| ≤ 3.14159 := by
  intro p s
  refine speed_recovers_movement 0.001 (by norm_num) s p 4 ?_ fun i _ => ?_
  · have h : reduce (p 0) = 0 := by
      have hp0 : p 0 = 0 := by norm_num [p]
      rw [reduce, hp0]
      exact wrap_of_mem le_rfl _2PI_pos
    rw [h]
    norm_num [s, Motor_1, motorInit]
  · have h : p (i + 1) - p i = -3 := by
      simp only [p]
      push_cast
      ring
    rw [h]
    norm_num

end At32Foc
