import At32Foc.Lib.Run

/-!
# DMA channels

A channel moves items between a peripheral and the memory from its base address on.
It is given a number of items (`size`) and counts down what is left (`count`); the
item it moves next is number `index`.  When the count is exhausted it raises its
full-transfer flag and, in loop mode, starts again at the base address; otherwise
it moves nothing until it is reloaded.

* `DmaChannel.store_run`: stores that fit in what is left fill consecutive places.
* `DmaChannel.store_length`: no store changes the size of the memory.
* `DmaChannel.moved_index_mod`: in loop mode the places go round the memory.
-/

namespace ControlLib

variable {α : Type*}

structure DmaChannel where
  size : ℕ
  loop : Bool
  count : ℕ
  enabled : Bool
  /-- The full-transfer flag. -/
  fdt : Bool
  deriving Repr, DecidableEq

namespace DmaChannel

/-- A channel configured for `size` items and enabled. -/
def armed (size : ℕ) (loop : Bool) : DmaChannel := ⟨size, loop, size, true, false⟩

/-- The number of the next item. -/
def index (c : DmaChannel) : ℕ := c.size - c.count

/-- The channel answers the requests of its peripheral. -/
def Active (c : DmaChannel) : Prop := c.enabled = true ∧ 0 < c.count

instance (c : DmaChannel) : Decidable c.Active := inferInstanceAs (Decidable (_ ∧ _))

/-- The count after one item. -/
def moved (c : DmaChannel) : DmaChannel :=
  if c.count = 1 then { c with count := if c.loop then c.size else 0, fdt := true }
  else { c with count := c.count - 1 }

/-- An item arrives from the peripheral. -/
def store (s : DmaChannel × List α) (a : α) : DmaChannel × List α :=
  if s.1.Active then (s.1.moved, s.2.set s.1.index a) else s

@[simp] theorem moved_size (c : DmaChannel) : c.moved.size = c.size := by
  unfold moved
  split_ifs <;> rfl

@[simp] theorem moved_enabled (c : DmaChannel) : c.moved.enabled = c.enabled := by
  unfold moved
  split_ifs <;> rfl

@[simp] theorem moved_loop (c : DmaChannel) : c.moved.loop = c.loop := by
  unfold moved
  split_ifs <;> rfl

theorem moved_of_one_lt {c : DmaChannel} (h : 1 < c.count) :
    c.moved = { c with count := c.count - 1 } := if_neg h.ne'

@[simp] theorem store_length (s : DmaChannel × List α) (a : α) :
    (store s a).2.length = s.2.length := by
  unfold store
  split_ifs
  · exact List.length_set
  · rfl

theorem store_run_length (s : DmaChannel × List α) (xs : List α) :
    (run store s xs).2.length = s.2.length :=
  run_invariant (I := fun t => t.2.length = s.2.length) (fun t a h => (store_length t a).trans h)
    xs s rfl

theorem moved_index {c : DmaChannel} (hc : c.count ≤ c.size) (h : 1 < c.count) :
    c.moved.index = c.index + 1 := by
  rw [moved_of_one_lt h]
  simp only [index]
  omega

/-- A channel that goes round its items. -/
def Rounds (c : DmaChannel) : Prop := c.loop = true ∧ 0 < c.count ∧ c.count ≤ c.size

theorem Rounds.index_lt {c : DmaChannel} (h : c.Rounds) : c.index < c.size := by
  obtain ⟨-, hpos, hle⟩ := h
  rw [index]
  omega

/-- The last item of a round, and every other. -/
theorem Rounds.moved_cases {c : DmaChannel} (h : c.Rounds) :
    c.index + 1 = c.size ∧ c.moved = { c with count := c.size, fdt := true } ∨
      c.index + 1 < c.size ∧ 1 < c.count ∧ c.moved = { c with count := c.count - 1 } := by
  obtain ⟨hloop, hpos, hle⟩ := h
  rw [index, DmaChannel.moved, hloop, if_pos rfl]
  by_cases h1 : c.count = 1
  · exact .inl ⟨by omega, if_pos h1⟩
  · exact .inr ⟨by omega, by omega, if_neg h1⟩

theorem Rounds.moved {c : DmaChannel} (h : c.Rounds) : c.moved.Rounds := by
  obtain ⟨hlast, e⟩ | ⟨-, hcount, e⟩ := h.moved_cases
  · rw [e]
    exact ⟨h.1, h.2.1.trans_le h.2.2, le_rfl⟩
  · rw [e]
    exact ⟨h.1, Nat.sub_pos_of_lt hcount, (Nat.sub_le _ _).trans h.2.2⟩

theorem moved_index_mod {c : DmaChannel} (h : c.Rounds) :
    c.moved.index = (c.index + 1) % c.size := by
  obtain ⟨hlast, e⟩ | ⟨hlt, hcount, e⟩ := h.moved_cases
  · rw [hlast, Nat.mod_self, e]
    exact Nat.sub_self _
  · have hle := h.2.2
    rw [Nat.mod_eq_of_lt hlt, e]
    simp only [index]
    omega

/-- The flag goes up with the last item of a round. -/
theorem moved_fdt {c : DmaChannel} (h : c.Rounds) (hfdt : c.fdt = false) :
    c.moved.fdt = true ↔ c.index + 1 = c.size := by
  obtain ⟨hlast, e⟩ | ⟨hlt, -, e⟩ := h.moved_cases
  · rw [e]
    exact iff_of_true rfl hlast
  · rw [e, hfdt]
    exact iff_of_false Bool.false_ne_true hlt.ne

/-- Items that fit in what is left of the transfer take consecutive places. -/
theorem store_run (xs : List α) (c : DmaChannel) (pre old post : List α)
    (he : c.enabled = true) (hc : c.count ≤ c.size) (hx : xs.length ≤ c.count)
    (hpre : pre.length = c.index) (hold : old.length = xs.length) :
    (run store (c, pre ++ (old ++ post)) xs).2 = pre ++ (xs ++ post) := by
  induction xs generalizing c pre old with
  | nil =>
    obtain rfl := List.length_eq_zero_iff.mp hold
    rfl
  | cons a xs ih =>
    obtain ⟨o, old, rfl⟩ := List.exists_cons_of_length_eq_add_one hold
    rw [List.length_cons] at hx hold
    have hact : c.Active := ⟨he, by omega⟩
    have hset : (pre ++ (o :: old ++ post)).set c.index a = pre ++ [a] ++ (old ++ post) := by
      rw [← hpre, List.set_append_right _ _ le_rfl, Nat.sub_self]
      simp
    rw [run_cons, store, if_pos hact, hset]
    rcases Nat.eq_or_lt_of_le (show 1 ≤ c.count by omega) with h1 | h1
    · -- the last item of the transfer
      obtain rfl : xs = [] := List.length_eq_zero_iff.mp (by omega)
      obtain rfl : old = [] := List.length_eq_zero_iff.mp (by simpa using hold)
      simp
    · have hcount : c.moved.count = c.count - 1 := by rw [moved_of_one_lt h1]
      have hlen : (pre ++ [a]).length = c.moved.index := by
        rw [moved_index hc h1, List.length_append, hpre]
        rfl
      rw [ih c.moved (pre ++ [a]) old (by rwa [moved_enabled]) (by rw [hcount, moved_size]; omega)
        (by rw [hcount]; omega) hlen (by simpa using hold)]
      simp

end DmaChannel

end ControlLib
