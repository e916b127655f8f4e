import Mathlib.Data.Nat.Periodic
import Mathlib.Data.Int.Interval
import Mathlib.Tactic.Linarith

/-!
# Centre-aligned pulse-width modulation

A counter that counts up to `pr` and down again, and an output that is high while the
counter is below a compare value: strictly below it on the way up, at most it on the way
down.  The compare value may be changed at any time, and counts at once.

* `counterAt` / `count_counterAt`: the counter is periodic, with `2 * pr` counts to a period.
* `onTime_period`: with the compare value `d` an output is high for `2 * d` counts of a
  period, wherever the period starts.
* `onTime_bounds`: with compare values from `lo` to `hi`, for `2 * lo` to `2 * hi` counts.
-/

namespace ControlLib

structure UpDownCounter where
  cval : ℕ
  down : Bool
  deriving Repr, DecidableEq

namespace UpDownCounter

def count (pr : ℕ) (c : UpDownCounter) : UpDownCounter :=
  if c.down then (if c.cval = 1 then ⟨0, false⟩ else ⟨c.cval - 1, true⟩)
  else if c.cval + 1 = pr then ⟨pr, true⟩ else ⟨c.cval + 1, false⟩

/-- The output of a channel with the compare value `d`. -/
def high (d : ℤ) (c : UpDownCounter) : Bool :=
  if c.down then (c.cval : ℤ) ≤ d else (c.cval : ℤ) < d

/-- The counts of a sequence for which an output is high, each with the compare value
it has then. -/
def onTime (pr : ℕ) : UpDownCounter → List ℤ → ℕ
  | _, [] => 0
  | c, d :: ds => (if c.high d then 1 else 0) + onTime pr (c.count pr) ds

/-- The counter `i` counts after it has started from 0. -/
def counterAt (pr i : ℕ) : UpDownCounter :=
  if i % (2 * pr) < pr then ⟨i % (2 * pr), false⟩ else ⟨2 * pr - i % (2 * pr), true⟩

theorem count_counterAt {pr : ℕ} (h : 1 < pr) (i : ℕ) :
    (counterAt pr i).count pr = counterAt pr (i + 1) := by
  have hlt : i % (2 * pr) < 2 * pr := Nat.mod_lt _ (by omega)
  have hnext : (i + 1) % (2 * pr) = if i % (2 * pr) + 1 = 2 * pr then 0 else i % (2 * pr) + 1 := by
    rw [Nat.add_mod, Nat.mod_eq_of_lt (show 1 < 2 * pr by omega)]
    split_ifs with h1
    · rw [h1, Nat.mod_self]
    · rw [Nat.mod_eq_of_lt (by omega)]
  unfold counterAt
  rw [hnext]
  generalize i % (2 * pr) = k at hlt
  by_cases hk : k < pr
  · rw [if_pos hk, if_neg (show k + 1 ≠ 2 * pr by omega)]
    rcases Nat.lt_or_ge (k + 1) pr with h1 | h1
    · simp only [count, Bool.false_eq_true, if_false, if_neg (show k + 1 ≠ pr by omega), if_pos h1]
    · obtain rfl : pr = k + 1 := by omega
      simp only [count, Bool.false_eq_true, if_false, if_true, lt_irrefl]
      congr 1
      omega
  · rw [if_neg hk]
    by_cases h1 : k + 1 = 2 * pr
    · rw [if_pos h1, if_pos (show 0 < pr by omega), count, if_pos rfl,
        if_pos (show 2 * pr - k = 1 by omega)]
    · rw [if_neg h1, if_neg (show ¬k + 1 < pr by omega), count, if_pos rfl,
        if_neg (show 2 * pr - k ≠ 1 by omega)]
      rfl

/-- A higher compare value keeps the output high for longer. -/
theorem high_mono {d e : ℤ} (h : d ≤ e) {c : UpDownCounter} (hc : c.high d = true) :
    c.high e = true := by
  unfold high at hc ⊢
  split_ifs at hc ⊢
  · exact decide_eq_true ((of_decide_eq_true hc).trans h)
  · exact decide_eq_true ((of_decide_eq_true hc).trans_le h)

theorem onTime_mono (pr : ℕ) {ds es : List ℤ} (h : List.Forall₂ (· ≤ ·) ds es)
    (c : UpDownCounter) : onTime pr c ds ≤ onTime pr c es := by
  induction h generalizing c with
  | nil => exact le_rfl
  | cons hd _ ih =>
    rw [onTime, onTime]
    refine Nat.add_le_add ?_ (ih _)
    split_ifs with h1 h2
    · exact le_rfl
    · exact absurd (high_mono hd h1) h2
    · exact Nat.zero_le _
    · exact le_rfl

/-! ## A whole period -/

theorem onTime_replicate {pr : ℕ} (h : 1 < pr) (d : ℤ) (n i : ℕ) :
    onTime pr (counterAt pr i) (List.replicate n d) =
      ((Finset.Ico i (i + n)).filter fun k => (counterAt pr k).high d = true).card := by
  induction n generalizing i with
  | zero => simp [onTime]
  | succ n ih =>
    have hcons : Finset.Ico i (i + (n + 1)) = insert i (Finset.Ico (i + 1) (i + 1 + n)) := by
      ext k
      simp only [Finset.mem_insert, Finset.mem_Ico]
      omega
    rw [List.replicate_succ, onTime, count_counterAt h, ih, hcons, Finset.filter_insert]
    split_ifs with hi
    · rw [Finset.card_insert_of_notMem (by simp)]
      omega
    · omega

/-- The counts of a period with a high output: the first `d` and the last `d`. -/
theorem high_counterAt {pr d k : ℕ} (hd : d ≤ pr) (hk : k < 2 * pr) :
    (counterAt pr k).high d = true ↔ k < d ∨ 2 * pr - d ≤ k := by
  rw [counterAt, Nat.mod_eq_of_lt hk]
  split_ifs with h
  · simp only [high, Bool.false_eq_true, if_false, decide_eq_true_eq, Nat.cast_lt]
    omega
  · simp only [high, if_true, decide_eq_true_eq, Nat.cast_le]
    omega

theorem onTime_period {pr d : ℕ} (h : 1 < pr) (hd : d ≤ pr) (i : ℕ) :
    onTime pr (counterAt pr i) (List.replicate (2 * pr) (d : ℤ)) = 2 * d := by
  have hper : Function.Periodic (fun k => (counterAt pr k).high d = true) (2 * pr) := by
    intro k
    simp only [counterAt, Nat.add_mod_right]
  rw [onTime_replicate h, Nat.filter_Ico_card_eq_of_periodic _ _ _ hper,
    Nat.count_eq_card_filter_range]
  have hset : (Finset.range (2 * pr)).filter (fun k => (counterAt pr k).high d = true) =
      Finset.range d ∪ Finset.Ico (2 * pr - d) (2 * pr) := by
    ext k
    simp only [Finset.mem_filter, Finset.mem_union, Finset.mem_range, Finset.mem_Ico]
    constructor
    · rintro ⟨hk, hhigh⟩
      exact ((high_counterAt hd hk).mp hhigh).imp_right fun hle => ⟨hle, hk⟩
    · intro hk
      have hlt : k < 2 * pr := by omega
      exact ⟨hlt, (high_counterAt hd hlt).mpr (hk.imp_right And.left)⟩
  have hdisj : Disjoint (Finset.range d) (Finset.Ico (2 * pr - d) (2 * pr)) := by
    rw [Finset.disjoint_left]
    intro k h1 h2
    rw [Finset.mem_range] at h1
    rw [Finset.mem_Ico] at h2
    omega
  rw [hset, Finset.card_union_of_disjoint hdisj, Finset.card_range, Nat.card_Ico]
  omega

/-- **On-time of a period.**  An output whose compare value stays within bounds, however often
it is changed and when, is high for a time within the bounds. -/
theorem onTime_bounds {pr lo hi : ℕ} (h : 1 < pr) (hhi : hi ≤ pr) {ds : List ℤ}
    (hlen : ds.length = 2 * pr) (hds : ∀ d ∈ ds, (lo : ℤ) ≤ d ∧ d ≤ hi) (i : ℕ) :
    2 * lo ≤ onTime pr (counterAt pr i) ds ∧ onTime pr (counterAt pr i) ds ≤ 2 * hi := by
  have hle (es : List ℤ) (a : ℤ) (ha : ∀ d ∈ es, a ≤ d) :
      List.Forall₂ (· ≤ ·) (List.replicate es.length a) es := by
    induction es with
    | nil => exact .nil
    | cons d es ih =>
      exact .cons (ha d List.mem_cons_self) (ih fun e he => ha e (List.mem_cons_of_mem d he))
  have hge (es : List ℤ) (a : ℤ) (ha : ∀ d ∈ es, d ≤ a) :
      List.Forall₂ (· ≤ ·) es (List.replicate es.length a) := by
    induction es with
    | nil => exact .nil
    | cons d es ih =>
      exact .cons (ha d List.mem_cons_self) (ih fun e he => ha e (List.mem_cons_of_mem d he))
  have h1 := onTime_mono pr (hle ds lo fun d hd => (hds d hd).1) (counterAt pr i)
  have h2 := onTime_mono pr (hge ds hi fun d hd => (hds d hd).2) (counterAt pr i)
  rw [hlen, onTime_period h hhi] at h2
  rcases Nat.lt_or_ge pr lo with hlo | hlo
  · -- no compare value is in the bounds
    cases ds with
    | nil =>
      rw [List.length_nil] at hlen
      omega
    | cons d ds =>
      have hd := hds d List.mem_cons_self
      omega
  · rw [hlen, onTime_period h hlo] at h1
    exact ⟨h1, h2⟩

end UpDownCounter

end ControlLib
