import At32Foc.Lib.CString
import At32Foc.FocState

/-!
# The command parser

`parse_and_set_pid` of `usart_1.c`.  A command is `name_g:number`; `parseName` is
everything up to the choice of the structure (`g` is 1 or 2), `setParam` the
eleven-way match on the name.  The number conversion of the C library is a
parameter `strtof`, so that the parser can be read over any number type.
-/

namespace At32Foc

open ControlLib

/-- The group, the name before the suffix, and the text after the first `:`; `none` where
the source prints an error and returns. -/
def parseName (input : List UInt8) : Option (Motor × List UInt8 × List UInt8) :=
  match strchr input 58 with  -- ':'
  | none => none
  | some nameLen =>
    if nameLen ≥ 20 then none
    else
      let name := input.take nameLen
      match strrchr name 95 with  -- '_'
      | none => none
      | some suffix =>
        let digit := name.getD (suffix + 1) 0
        if digit = 49 then some (.M1, name.take suffix, input.drop (nameLen + 1))
        else if digit = 50 then some (.M2, name.take suffix, input.drop (nameLen + 1))
        else none

section Parse

variable {F : Type} (strtof : List UInt8 → F)

/-- The match on the name; an unknown name changes nothing. -/
def setParam (name text : List UInt8) (pid : PIDParams F) : PIDParams F :=
  if name = cstr "Current_SET" then { pid with CurrentSetFlag := UInt8.ofInt (strtol text) }
  else if name = cstr "Current_KP" then { pid with CurrentKP := strtof text }
  else if name = cstr "Current_KI" then { pid with CurrentKI := strtof text }
  else if name = cstr "Current_KD" then { pid with CurrentKD := strtof text }
  else if name = cstr "Iq" then { pid with Iq := strtof text }
  else if name = cstr "Id" then { pid with Id := strtof text }
  else if name = cstr "Speed_SET" then { pid with SpeedSetFlag := UInt8.ofInt (strtol text) }
  else if name = cstr "Speed_KP" then { pid with SpeedKP := strtof text }
  else if name = cstr "Speed_KI" then { pid with SpeedKI := strtof text }
  else if name = cstr "Speed_KD" then { pid with SpeedKD := strtof text }
  else if name = cstr "Speed" then { pid with Speed := strtof text }
  else pid

def parseAndSetPid (input : List UInt8) (pidParams1 pidParams2 : PIDParams F) :
    PIDParams F × PIDParams F :=
  match parseName input with
  | none => (pidParams1, pidParams2)
  | some (.M1, name, text) => (setParam strtof name text pidParams1, pidParams2)
  | some (.M2, name, text) => (pidParams1, setParam strtof name text pidParams2)

end Parse

/-- The group a message addresses, if it passes the checks before the name match. -/
def commandGroup (input : List UInt8) : Option Motor := (parseName input).map (·.1)

example : commandGroup (cstr "Speed_KP_2:0.5") = some .M2 := by decide

end At32Foc
