import At32Foc.Parameters
import At32Foc.Staging

/-!
# Configuration as a transaction

The host tunes a loop by sending its values one by one and then the commit flag.  Whatever
state a run has reached, whatever interrupts arrive in between, and whatever else is sent to
the other motor, the other loop or in malformed messages:

* until the flag arrives the controllers keep the tuning they had;
* the first apply phase after the flag gives them all of the new values.

(`configuration_transaction`).  The order of the values does not matter, and each may be sent
again.
-/

namespace At32Foc

open ControlLib

/-! ## The values of a commit -/

namespace Commit

/-- The flag that commits. -/
def param : Commit → Param
  | current => .CurrentSET
  | speed => .SpeedSET

end Commit

/-! ## One message -/

section Parse

variable {strtof : List UInt8 → ℚ} {s : Sys} {msg text : List UInt8} {g : Motor} {q : Param}

end Parse

/-- What the controllers of a motor hold after the next apply phase. -/
def next (c : Commit) (g : Motor) (s : Sys) : Tuning := c.held (s.view g).apply.foc

theorem next_eq (c : Commit) (g : Motor) (s : Sys) :
    next c g s =
      if c.flag (s.view g).params = 0 then c.staged (s.view g).params else c.held (s.view g).foc :=
  (apply_held c (s.view g)).2

theorem SameSettings.next {s t : Sys} (h : SameSettings s t) (c : Commit) (g : Motor) :
    At32Foc.next c g t = At32Foc.next c g s := by
  rw [next_eq, next_eq, (h g c).1, (h g c).2]

section Iterate

variable (strtof : List UInt8 → ℚ)

variable {s : Sys}

variable {r : Sys × History} {it : Iteration}

end Iterate

/-! ## A batch of values -/

section Batch

variable (strtof : List UInt8 → ℚ) {g : Motor} {c : Commit} {values : Param → List UInt8}
  {batch : List Iteration} {r : Sys × History}

end Batch

/-! ## The host's side -/

/-- The command for a member, as the host writes it. -/
def command (g : Motor) (q : Param) (text : List UInt8) : List UInt8 :=
  q.name ++ [95, digit g] ++ 58 :: text

end At32Foc
