import Mathlib.Logic.Function.Iterate
import Mathlib.Tactic.Ring

/-!
# Down counters

A counter that, while enabled, goes from its reload value down to zero, raises its flag
when it gets there, and reloads with the next clock.  Writing to the counter clears it and
the flag; reading the control register clears the flag.

* `left`: the clocks that are left until the flag goes up.
* `left_le` / `left_clocks`: `n` clocks take at most, and while it counts exactly, `n` away.
-/

namespace ControlLib

structure DownCounter where
  load : ℕ
  val : ℕ
  enable : Bool
  flag : Bool
  deriving Repr, DecidableEq

namespace DownCounter

def clock (c : DownCounter) : DownCounter :=
  if c.enable then
    if c.val = 0 then { c with val := c.load }
    else { c with val := c.val - 1, flag := c.flag || c.val == 1 }
  else c

/-- A write to the counter. -/
def clear (c : DownCounter) : DownCounter := { c with val := 0, flag := false }

/-- A read of the control register. -/
def readControl (c : DownCounter) : DownCounter := { c with flag := false }

/-- The clocks until the flag goes up, for a counter that reloads from a positive value. -/
def left (c : DownCounter) : ℕ :=
  if c.flag then 0 else if c.val = 0 then c.load + 1 else c.val

@[simp] theorem clock_load (c : DownCounter) : c.clock.load = c.load := by
  unfold clock
  split_ifs <;> rfl

@[simp] theorem clock_enable (c : DownCounter) : c.clock.enable = c.enable := by
  unfold clock
  split_ifs <;> rfl

@[simp] theorem clocks_load (c : DownCounter) (n : ℕ) : (clock^[n] c).load = c.load := by
  induction n with
  | zero => rfl
  | succ n ih => rw [Function.iterate_succ_apply', clock_load, ih]

@[simp] theorem clocks_enable (c : DownCounter) (n : ℕ) : (clock^[n] c).enable = c.enable := by
  induction n with
  | zero => rfl
  | succ n ih => rw [Function.iterate_succ_apply', clock_enable, ih]

theorem left_of_flag {c : DownCounter} (h : c.flag = true) : c.left = 0 := if_pos h

theorem left_pos {c : DownCounter} (h : c.flag = false) : 0 < c.left := by
  unfold left
  rw [h, if_neg Bool.false_ne_true]
  split_ifs
  · exact Nat.succ_pos _
  · omega

/-- The case split on where the counter is. -/
theorem clock_left (c : DownCounter) : c.left ≤ c.clock.left + 1 ∧
    (c.enable = true → 0 < c.load → c.clock.left = c.left - 1) := by
  obtain ⟨load, val, enable, flag⟩ := c
  cases enable
  · simp [clock, left]
  cases flag
  · rcases Nat.lt_trichotomy val 1 with hv | rfl | hv
    · obtain rfl : val = 0 := by omega
      show load + 1 ≤ (if load = 0 then load + 1 else load) + 1 ∧
        (true = true → 0 < load → (if load = 0 then load + 1 else load) = load)
      split_ifs with h0
      · exact ⟨Nat.le_succ _, fun _ h => absurd h0 h.ne'⟩
      · exact ⟨le_rfl, fun _ _ => rfl⟩
    · simp [clock, left]
    · have h1 : (val == 1) = false := by simpa using hv.ne'
      have hclock : clock ⟨load, val, true, false⟩ = ⟨load, val - 1, true, false⟩ := by
        rw [clock, if_pos rfl, if_neg (show val ≠ 0 by omega), h1]
        rfl
      have hleft (v : ℕ) (h : v ≠ 0) : left ⟨load, v, true, false⟩ = v := if_neg h
      rw [hclock, hleft val (by omega), hleft (val - 1) (by omega)]
      exact ⟨by omega, fun _ _ => rfl⟩
  · simp only [clock, left]
    split_ifs <;> simp_all

theorem left_le (c : DownCounter) (n : ℕ) : c.left ≤ (clock^[n] c).left + n := by
  induction n with
  | zero => exact le_rfl
  | succ n ih =>
    rw [Function.iterate_succ_apply']
    have h := (clock_left (clock^[n] c)).1
    omega

theorem left_clocks {c : DownCounter} (he : c.enable = true) (hl : 0 < c.load) (n : ℕ) :
    (clock^[n] c).left = c.left - n := by
  induction n with
  | zero => rfl
  | succ n ih =>
    rw [Function.iterate_succ_apply', (clock_left _).2 (by rw [clocks_enable, he])
      (by rw [clocks_load]; exact hl), ih]
    omega

theorem clocks_val_le {c : DownCounter} (h : c.val ≤ c.load) (n : ℕ) :
    (clock^[n] c).val ≤ c.load := by
  induction n with
  | zero => exact h
  | succ n ih =>
    rw [Function.iterate_succ_apply', clock]
    split_ifs
    · exact (clocks_load c n).le
    · exact (Nat.sub_le _ _).trans ih
    · exact ih

theorem readControl_left (c : DownCounter) :
    c.readControl.left = if c.val = 0 then c.load + 1 else c.val := rfl

/-- A flag that is read starts the count again. -/
theorem left_le_readControl (c : DownCounter) : c.left ≤ c.readControl.left := by
  rw [readControl_left, left]
  split_ifs
  · exact Nat.zero_le _
  · exact Nat.zero_le _
  · exact le_rfl
  · exact le_rfl

theorem readControl_left_le {c : DownCounter} (h : c.val ≤ c.load) :
    c.readControl.left ≤ c.load + 1 := by
  rw [readControl_left]
  split_ifs
  · exact le_rfl
  · exact h.trans (Nat.le_succ _)

end DownCounter

end ControlLib
