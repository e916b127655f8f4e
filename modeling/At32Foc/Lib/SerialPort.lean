import Mathlib.Data.List.Basic

/-!
# Serial transmitters

The transmit side of a serial port.  An item is written to the data register `dt`; when
the shift register is free it moves there, and from there to the wire.  Nothing stops a
writer from writing to a data register that is not empty, and the item in it is then
lost.  The flag `tdc` is raised when an item has gone and none waits; a program that reads
the status and then writes lowers it, a DMA channel does not.

* `queue`: what has been written and not lost, in order.
* `filter_queue_put`: a write that overwrites no item of a kind adds to the items of that
  kind.
-/

namespace ControlLib

variable {α : Type*}

structure SerialPort (α : Type*) where
  dt : Option α
  shift : Option α
  tdc : Bool
  wire : List α

namespace SerialPort

/-- A port after reset. -/
def reset : SerialPort α := ⟨none, none, true, []⟩

/-- A write by a DMA channel. -/
def put (a : α) (p : SerialPort α) : SerialPort α := { p with dt := some a }

/-- A write by a program that has read the status. -/
def transmit (a : α) (p : SerialPort α) : SerialPort α := { p.put a with tdc := false }

/-- The item in the data register moves to the shift register. -/
def load (p : SerialPort α) : SerialPort α :=
  match p.shift with
  | none => { p with shift := p.dt, dt := none }
  | some _ => p

/-- The last bit of an item goes out. -/
def finish (p : SerialPort α) : SerialPort α :=
  match p.shift with
  | none => p
  | some a => { p with shift := none, wire := p.wire ++ [a], tdc := p.tdc || p.dt.isNone }

/-- Written and not yet on the wire. -/
def inFlight (p : SerialPort α) : List α := p.shift.toList ++ p.dt.toList

def queue (p : SerialPort α) : List α := p.wire ++ p.inFlight

@[simp] theorem load_queue (p : SerialPort α) : p.load.queue = p.queue := by
  unfold load
  split
  · simp [queue, inFlight, *]
  · rfl

@[simp] theorem finish_queue (p : SerialPort α) : p.finish.queue = p.queue := by
  unfold finish
  split
  · rfl
  · simp [queue, inFlight, *]

theorem mem_inFlight_of_dt {p : SerialPort α} {a : α} (h : p.dt = some a) : a ∈ p.inFlight := by
  simp [inFlight, h]

theorem mem_inFlight_load {p : SerialPort α} {a : α} (h : a ∈ p.load.inFlight) :
    a ∈ p.inFlight := by
  unfold load at h
  split at h
  · simpa [inFlight, *] using h
  · exact h

theorem mem_inFlight_finish {p : SerialPort α} {a : α} (h : a ∈ p.finish.inFlight) :
    a ∈ p.inFlight := by
  unfold finish at h
  split at h
  · exact h
  · rw [inFlight, Option.toList_none, List.nil_append] at h
    exact List.mem_append_right _ h

theorem mem_inFlight_put {p : SerialPort α} {a b : α} (h : a ∈ (p.put b).inFlight) :
    a = b ∨ a ∈ p.inFlight := by
  rcases List.mem_append.mp h with h | h
  · exact .inr (List.mem_append_left _ h)
  · exact .inl (by simpa [put] using h)

theorem load_dt {p : SerialPort α} {a : α} (h : p.load.dt = some a) : p.dt = some a := by
  unfold load at h
  split at h
  · cases h
  · exact h

@[simp] theorem finish_dt (p : SerialPort α) : p.finish.dt = p.dt := by
  unfold finish
  split <;> rfl

@[simp] theorem load_tdc (p : SerialPort α) : p.load.tdc = p.tdc := by
  unfold load
  split <;> rfl

/-- The flag goes up when nothing is left in the port. -/
theorem finish_tdc {p : SerialPort α} (h : p.finish.tdc = true) :
    p.tdc = true ∨ p.finish.inFlight = [] := by
  unfold finish at h ⊢
  split at h
  · exact .inl h
  · rcases Bool.or_eq_true_iff.mp h with h | h
    · exact .inl h
    · rw [Option.isNone_iff_eq_none] at h
      exact .inr (by simp [inFlight, h])

/-- What is lost when an item is written. -/
theorem queue_eq_dropped (p : SerialPort α) : p.queue = p.wire ++ p.shift.toList ++ p.dt.toList :=
  (List.append_assoc _ _ _).symm

theorem put_queue (a : α) (p : SerialPort α) : (p.put a).queue = p.wire ++ p.shift.toList ++ [a] :=
  queue_eq_dropped _

section Kinds

variable (k : α → Bool) {p : SerialPort α} {a : α}

theorem filter_queue_put (h : ∀ b, p.dt = some b → k b = false) :
    (p.put a).queue.filter k = p.queue.filter k ++ [a].filter k := by
  have hdt : p.dt.toList.filter k = [] := by
    cases hd : p.dt with
    | none => rfl
    | some b => simp [h b hd]
  rw [put_queue, queue_eq_dropped, List.filter_append, List.filter_append _ p.dt.toList, hdt,
    List.append_nil]

/-- A write over an item of a kind by one of another loses that one. -/
theorem filter_queue_overwritten {b : α} (hb : p.dt = some b) (hkb : k b = true)
    (ha : k a = false) : p.queue.filter k = (p.put a).queue.filter k ++ [b] := by
  rw [put_queue, queue_eq_dropped, hb, List.filter_append, List.filter_append _ [a]]
  simp [hkb, ha]

end Kinds

end SerialPort

end ControlLib
