import Mathlib

/-!
# Exact rationals with the special values of IEEE 754

`XFloat` adds `±∞` and `NaN` to the rationals, with the IEEE rules for them:
arithmetic on a `NaN` gives `NaN`, so do `∞ - ∞` and `0 * ∞`, and every ordered
comparison with a `NaN` is false.  Finite operations are exact (no rounding, one
zero).

`AddValid` and `MulValid` say that an operation is not one of the invalid ones;
the result is then a number (`add_isNum_iff`, `mul_isNum_iff`), infinite or not as
its operands say (`sub_kind`, `mul_kind`).
-/

namespace ControlLib

/-- The C library's absolute value. -/
class Fabs (F : Type*) where
  fabs : F → F

export Fabs (fabs)

instance : Fabs ℚ := ⟨abs⟩

@[simp] theorem fabs_rat (q : ℚ) : fabs q = |q| := rfl

/-- `inf true` is `-∞`. -/
inductive XFloat where
  | fin (q : ℚ)
  | inf (neg : Bool)
  | nan
  deriving Repr, DecidableEq

namespace XFloat

def neg : XFloat → XFloat
  | fin q => fin (-q)
  | inf s => inf !s
  | nan => nan

def add : XFloat → XFloat → XFloat
  | nan, _ => nan
  | _, nan => nan
  | fin a, fin b => fin (a + b)
  | fin _, inf s => inf s
  | inf s, fin _ => inf s
  | inf s, inf t => if s = t then inf s else nan

def mul : XFloat → XFloat → XFloat
  | nan, _ => nan
  | _, nan => nan
  | fin a, fin b => fin (a * b)
  | fin a, inf s => if a = 0 then nan else inf (xor s (decide (a < 0)))
  | inf s, fin a => if a = 0 then nan else inf (xor s (decide (a < 0)))
  | inf s, inf t => inf (xor s t)

def lt : XFloat → XFloat → Bool
  | fin a, fin b => decide (a < b)
  | fin _, inf s => !s
  | inf s, fin _ => s
  | inf s, inf t => s && !t
  | _, _ => false

instance : Neg XFloat := ⟨neg⟩
instance : Add XFloat := ⟨add⟩
instance : Sub XFloat := ⟨fun x y => x + -y⟩
instance : Mul XFloat := ⟨mul⟩
instance : LT XFloat := ⟨fun x y => lt x y = true⟩
instance : DecidableLT XFloat := fun x y => inferInstanceAs (Decidable (lt x y = true))
instance : OfScientific XFloat := ⟨fun m s e => fin (OfScientific.ofScientific m s e)⟩

instance : Fabs XFloat := ⟨fun
  | fin q => fin |q|
  | inf _ => inf false
  | nan => nan⟩

@[simp] theorem ofScientific_eq (m : ℕ) (s : Bool) (e : ℕ) :
    (OfScientific.ofScientific m s e : XFloat) = fin (OfScientific.ofScientific m s e) := rfl

@[simp] theorem neg_fin (a : ℚ) : -fin a = fin (-a) := rfl
@[simp] theorem neg_inf (s : Bool) : -inf s = inf !s := rfl
@[simp] theorem neg_nan : -nan = nan := rfl
@[simp] theorem add_fin (a b : ℚ) : fin a + fin b = fin (a + b) := rfl
@[simp] theorem fin_add_inf (a : ℚ) (s : Bool) : fin a + inf s = inf s := rfl
@[simp] theorem inf_add_fin (s : Bool) (a : ℚ) : inf s + fin a = inf s := rfl
@[simp] theorem nan_add (x : XFloat) : nan + x = nan := by cases x <;> rfl
@[simp] theorem add_nan (x : XFloat) : x + nan = nan := by cases x <;> rfl
@[simp] theorem sub_fin (a b : ℚ) : fin a - fin b = fin (a - b) := by
  rw [sub_eq_add_neg]; rfl
@[simp] theorem inf_sub_fin (s : Bool) (a : ℚ) : inf s - fin a = inf s := rfl
@[simp] theorem fin_sub_inf (a : ℚ) (s : Bool) : fin a - inf s = inf !s := rfl
@[simp] theorem nan_sub (x : XFloat) : nan - x = nan := by cases x <;> rfl
@[simp] theorem sub_nan (x : XFloat) : x - nan = nan := by cases x <;> rfl
@[simp] theorem mul_fin (a b : ℚ) : fin a * fin b = fin (a * b) := rfl
@[simp] theorem nan_mul (x : XFloat) : nan * x = nan := by cases x <;> rfl
@[simp] theorem mul_nan (x : XFloat) : x * nan = nan := by cases x <;> rfl
@[simp] theorem fabs_fin (a : ℚ) : fabs (fin a) = fin |a| := rfl
@[simp] theorem fin_lt_fin (a b : ℚ) : fin a < fin b ↔ a < b := by
  show lt (fin a) (fin b) = true ↔ _
  simp [lt]
@[simp] theorem fin_lt_inf (a : ℚ) (s : Bool) : fin a < inf s ↔ s = false := by
  show lt (fin a) (inf s) = true ↔ _
  simp [lt]
@[simp] theorem inf_lt_fin (s : Bool) (a : ℚ) : inf s < fin a ↔ s = true := Iff.rfl
@[simp] theorem not_nan_lt (x : XFloat) : ¬ nan < x := by
  cases x <;> exact Bool.false_ne_true
@[simp] theorem not_lt_nan (x : XFloat) : ¬ x < nan := by
  cases x <;> exact Bool.false_ne_true

/-- Not a `NaN`. -/
def IsNum (x : XFloat) : Prop := x ≠ nan

/-- An ordinary finite number. -/
def IsFin (x : XFloat) : Prop := ∃ q, x = fin q

instance (x : XFloat) : Decidable (IsNum x) := inferInstanceAs (Decidable (x ≠ nan))

@[simp] theorem isNum_fin (q : ℚ) : IsNum (fin q) := nofun
@[simp] theorem isNum_inf (s : Bool) : IsNum (inf s) := nofun
@[simp] theorem not_isNum_nan : ¬ IsNum nan := fun h => h rfl
@[simp] theorem isFin_fin (q : ℚ) : IsFin (fin q) := ⟨q, rfl⟩
@[simp] theorem not_isFin_inf (s : Bool) : ¬ IsFin (inf s) := nofun
@[simp] theorem not_isFin_nan : ¬ IsFin nan := nofun

/-- Two numbers that are not opposite infinities. -/
def AddValid (x y : XFloat) : Prop :=
  IsNum x ∧ IsNum y ∧ ∀ s, ¬ (x = inf s ∧ y = inf !s)

/-- Two numbers that are not a zero and an infinity. -/
def MulValid (x y : XFloat) : Prop :=
  IsNum x ∧ IsNum y ∧ (x = fin 0 → IsFin y) ∧ (y = fin 0 → IsFin x)

theorem add_isNum_iff (x y : XFloat) : IsNum (x + y) ↔ AddValid x y := by
  cases x with
  | nan => simp [AddValid]
  | fin a => cases y <;> simp [AddValid]
  | inf s => cases y with
    | nan => simp [AddValid]
    | fin b => simp [AddValid]
    | inf t =>
      show IsNum (if s = t then inf s else nan) ↔ _
      cases s <;> cases t <;> simp [AddValid]

theorem mul_isNum_iff (x y : XFloat) : IsNum (x * y) ↔ MulValid x y := by
  cases x with
  | nan => simp [MulValid]
  | fin a => cases y with
    | nan => simp [MulValid]
    | fin b => simp [MulValid]
    | inf t =>
      show IsNum (if a = 0 then nan else _) ↔ _
      by_cases h : a = 0 <;> simp [MulValid, h]
  | inf s => cases y with
    | nan => simp [MulValid]
    | fin b =>
      show IsNum (if b = 0 then nan else _) ↔ _
      by_cases h : b = 0 <;> simp [MulValid, h]
    | inf t =>
      simp only [MulValid, isNum_inf, true_and]
      exact ⟨fun _ => ⟨nofun, nofun⟩, fun _ => nofun⟩

/-! ## Infinities and signs -/

def IsInf (x : XFloat) : Prop := ∃ s, x = inf s

/-- The sign of a number; 0 for a `NaN`. -/
def sgn : XFloat → SignType
  | fin q => SignType.sign q
  | inf s => if s then -1 else 1
  | nan => 0

@[simp] theorem not_isInf_fin (q : ℚ) : ¬ IsInf (fin q) := nofun
@[simp] theorem isInf_inf (s : Bool) : IsInf (inf s) := ⟨s, rfl⟩
@[simp] theorem not_isInf_nan : ¬ IsInf nan := nofun
@[simp] theorem sgn_fin (q : ℚ) : sgn (fin q) = SignType.sign q := rfl
@[simp] theorem sgn_inf (s : Bool) : sgn (inf s) = if s then -1 else 1 := rfl

theorem IsInf.not_isFin {x : XFloat} (h : IsInf x) : ¬ IsFin x := by
  obtain ⟨s, rfl⟩ := h
  exact not_isFin_inf s

theorem IsNum.isFin_of_not_isInf {x : XFloat} (h : IsNum x) (hi : ¬ IsInf x) : IsFin x := by
  cases x with
  | fin q => exact ⟨q, rfl⟩
  | inf s => exact absurd ⟨s, rfl⟩ hi
  | nan => exact absurd h not_isNum_nan

theorem addValid_iff (x y : XFloat) :
    AddValid x y ↔ IsNum x ∧ IsNum y ∧ (IsInf x → IsInf y → sgn x = sgn y) := by
  cases x with
  | nan => simp [AddValid]
  | fin a => simp [AddValid]
  | inf s => cases y with
    | nan => simp [AddValid]
    | fin b => simp [AddValid]
    | inf t => cases s <;> cases t <;> simp [AddValid]

theorem sub_isNum_iff (x y : XFloat) :
    IsNum (x - y) ↔ IsNum x ∧ IsNum y ∧ ∀ s, ¬ (x = inf s ∧ y = inf s) := by
  have h : x - y = x + -y := rfl
  rw [h, add_isNum_iff]
  cases y with
  | nan => simp [AddValid]
  | fin b => simp [AddValid]
  | inf t => cases t <;> simp [AddValid]

/-- What a valid difference is, its operands say. -/
theorem sub_kind {x y : XFloat} (h : IsNum (x - y)) :
    (IsFin (x - y) ↔ IsFin x ∧ IsFin y) ∧ (IsInf (x - y) ↔ IsInf x ∨ IsInf y) ∧
      (x - y = fin 0 ↔ x = y) := by
  rw [sub_isNum_iff] at h
  obtain ⟨hx, hy, hne⟩ := h
  cases x with
  | nan => exact absurd hx not_isNum_nan
  | fin a => cases y with
    | nan => exact absurd hy not_isNum_nan
    | fin b => simp [sub_eq_zero]
    | inf t => simp
  | inf s => cases y with
    | nan => exact absurd hy not_isNum_nan
    | fin b => simp
    | inf t =>
      have ht : t = !s := by
        cases s <;> cases t <;> simp at hne ⊢
      have e : inf s - inf t = inf s := by
        rw [ht]; cases s <;> rfl
      rw [e, ht]
      cases s <;> simp

theorem mul_fin_inf {a : ℚ} (s : Bool) (h : a ≠ 0) :
    fin a * inf s = inf (xor s (decide (a < 0))) := if_neg h

theorem mul_inf_fin {a : ℚ} (s : Bool) (h : a ≠ 0) :
    inf s * fin a = inf (xor s (decide (a < 0))) := if_neg h

/-- The sign of an infinity that a nonzero number scales. -/
theorem sgn_scaled {a : ℚ} (s : Bool) (h : a ≠ 0) :
    sgn (inf (xor s (decide (a < 0)))) = SignType.sign a * sgn (inf s) := by
  rcases lt_or_gt_of_ne h with ha | ha
  · cases s <;> simp [ha, sign_neg ha]
  · cases s <;> simp [not_lt.mpr ha.le, sign_pos ha]

/-- A valid product is infinite if an operand is, and its sign is the product of theirs. -/
theorem mul_kind {x y : XFloat} (h : MulValid x y) :
    (IsInf (x * y) ↔ IsInf x ∨ IsInf y) ∧ sgn (x * y) = sgn x * sgn y := by
  obtain ⟨hx, hy, hxz, hyz⟩ := h
  cases x with
  | nan => exact absurd hx not_isNum_nan
  | fin a => cases y with
    | nan => exact absurd hy not_isNum_nan
    | fin b => simp [sign_mul]
    | inf t =>
      have ha : a ≠ 0 := fun h0 => by simpa using hxz (by rw [h0])
      rw [mul_fin_inf t ha, sgn_scaled t ha]
      simp
  | inf s => cases y with
    | nan => exact absurd hy not_isNum_nan
    | fin b =>
      have hb : b ≠ 0 := fun h0 => by simpa using hyz (by rw [h0])
      rw [mul_inf_fin s hb, sgn_scaled s hb, mul_comm]
      simp
    | inf t =>
      have e : inf s * inf t = inf (xor s t) := rfl
      rw [e]
      cases s <;> cases t <;> simp

end XFloat

end ControlLib
