import At32Foc.Reception
import At32Foc.SingleMotor

/-!
# The two motors do not interfere, except through the receive buffer

The events of the other motor are invisible to a motor in every part of the system
but one: both receive their commands through the same buffer, and the end of an
earlier message may complete the number of a later one.  Two runs of the firmware
with the same events of a motor end with the same part of the state, provided every
command for the motor is read as it was sent (`noninterference`).

`lineStep` is what a motor should experience: its own events and an inbox that holds
its own last message.
-/

namespace At32Foc

open ControlLib

/-! ## One motor with an inbox -/

structure Line where
  view : MotorView
  inbox : Option (List UInt8)

inductive LineEvent where
  | own (e : MotorEvent)
  | message (msg : List UInt8)
  | parse
  deriving DecidableEq

/-- The parse phase, seen by a motor. -/
def MotorView.parseFor (strtof : List UInt8 → ℚ) (m : Motor) (input : List UInt8)
    (v : MotorView) : MotorView :=
  if commandGroup input = some m then v.parse strtof input else v

def lineStep (strtof : List UInt8 → ℚ) (m : Motor) (t : Line) : LineEvent → Line
  | .own e => { t with view := motorStep strtof m t.view e }
  | .message msg => { t with inbox := some msg }
  | .parse =>
    match t.inbox with
    | none => t
    | some msg => ⟨t.view.parseFor strtof m (cString msg), none⟩

/-- What an event of the firmware is to one motor. -/
def FirmwareEvent.forMotor (m : Motor) : FirmwareEvent → Option LineEvent
  | .adc1 ad angle => if m = .M1 then some (.own (.control ad angle)) else none
  | .adc3 ad angle => if m = .M2 then some (.own (.control ad angle)) else none
  | .tmr5 => some (.own .tick)
  | .apply => some (.own .apply)
  | .uart msg => if commandGroup (cString msg) = some m then some (.message msg) else none
  | .parse _ => some .parse

/-! ## Commands read as sent -/

section Commands

variable (strtof : List UInt8 → ℚ) (m : Motor)

theorem commandFor_of_group {s : List UInt8} (h : commandGroup s ≠ some m) :
    commandFor strtof m s = none := by
  unfold commandGroup at h
  unfold commandFor
  generalize parseName s = r at h ⊢
  rcases r with _ | ⟨g, name, text⟩
  · rfl
  · exact if_neg fun hg => h (congrArg some hg)

theorem parseFor_of_none {s : List UInt8} (h : commandFor strtof m s = none) (v : MotorView) :
    v.parseFor strtof m s = v := by
  unfold commandFor at h
  unfold MotorView.parseFor commandGroup
  generalize parseName s = r at h ⊢
  rcases r with _ | ⟨g, name, text⟩
  · rfl
  · refine if_neg fun hg => ?_
    simp only [if_pos (Option.some.inj hg), reduceCtorEq] at h

/-- The parse phase depends on the string through its command. -/
theorem parseFor_congr {s s' : List UInt8} (h : commandFor strtof m s = commandFor strtof m s')
    (v : MotorView) : v.parseFor strtof m s = v.parseFor strtof m s' := by
  cases hs : commandFor strtof m s with
  | none => rw [parseFor_of_none strtof m hs, parseFor_of_none strtof m (h ▸ hs)]
  | some cmd =>
    have hs' : commandFor strtof m s' = some cmd := h ▸ hs
    unfold commandFor at hs hs'
    unfold MotorView.parseFor commandGroup MotorView.parse
    generalize parseName s = r at hs ⊢
    generalize parseName s' = r' at hs' ⊢
    rcases r with _ | ⟨g, name, text⟩
    · cases hs
    rcases r' with _ | ⟨g', name', text'⟩
    · cases hs'
    simp only [Option.ite_none_right_eq_some, Option.some.injEq] at hs hs'
    obtain ⟨rfl, rfl⟩ := hs
    obtain ⟨rfl, hcmd⟩ := hs'
    simp only [Prod.mk.injEq] at hcmd
    obtain ⟨rfl, hf, hl⟩ := hcmd
    simp only [Option.map_some, if_true]
    rw [setParam_congr hf hl]

/-- A message reaches the motor as it was sent: what the parser finds in the buffer says the
same to the motor as the message alone, and a message that says nothing to the motor does
not overwrite a command for it that waits to be parsed. -/
def ReadAsSent (f : Firmware) : FirmwareEvent → Prop
  | .uart msg =>
    (∀ beyond, commandFor strtof m (cString (rxWrite msg f.uart1RxBuffer ++ beyond)) =
      commandFor strtof m (cString msg)) ∧
    (commandFor strtof m (cString msg) = none → f.rx1Flag = 1 →
      ∀ beyond, commandFor strtof m (cString (f.uart1RxBuffer ++ beyond)) = none)
  | _ => True

/-- The buffer holds for the motor what its inbox holds. -/
structure Delivers (f : Firmware) (t : Line) : Prop where
  wired : Wired f.sys
  view : f.sys.view m = t.view
  pending : f.rx1Flag = 1 → ∀ beyond, commandFor strtof m (cString (f.uart1RxBuffer ++ beyond)) =
    t.inbox.bind fun msg => commandFor strtof m (cString msg)
  idle : f.rx1Flag ≠ 1 → t.inbox = none

variable {strtof m}

/-- An event of the system that is none of the motor's. -/
theorem Delivers.sys_none {f : Firmware} {t : Line} (h : Delivers strtof m f t) {e : Event}
    (he : e.forMotor m = none) : Delivers strtof m { f with sys := step strtof f.sys e } t :=
  ⟨step_wired strtof f.sys e h.wired, (view_step_none strtof h.wired he).trans h.view,
    h.pending, h.idle⟩

/-- An event of the system that is one of the motor's. -/
theorem Delivers.sys_some {f : Firmware} {t : Line} (h : Delivers strtof m f t) {e : Event}
    {e' : MotorEvent} (he : e.forMotor m = some e') :
    Delivers strtof m { f with sys := step strtof f.sys e }
      { t with view := motorStep strtof m t.view e' } :=
  ⟨step_wired strtof f.sys e h.wired, by rw [view_step_some strtof h.wired he, h.view],
    h.pending, h.idle⟩

/-- The arrival of a message. -/
theorem Delivers.uart {f : Firmware} {t : Line} (h : Delivers strtof m f t) {msg : List UInt8}
    (hc : ReadAsSent strtof m f (.uart msg)) :
    Delivers strtof m (firmwareStep strtof f (.uart msg))
      (if commandGroup (cString msg) = some m then { t with inbox := some msg } else t) := by
  obtain ⟨hread, hkeep⟩ := hc
  by_cases hg : commandGroup (cString msg) = some m
  · rw [if_pos hg]
    exact ⟨h.wired, h.view, fun _ => hread, fun hne => absurd rfl hne⟩
  · rw [if_neg hg]
    have hnone := commandFor_of_group strtof m hg
    have hinbox : (t.inbox.bind fun msg => commandFor strtof m (cString msg)) = none := by
      by_cases hflag : f.rx1Flag = 1
      · rw [← h.pending hflag []]
        exact hkeep hnone hflag []
      · rw [h.idle hflag, Option.bind_none]
    refine ⟨h.wired, h.view, fun _ beyond => ?_, fun hne => absurd rfl hne⟩
    rw [hinbox]
    exact (hread beyond).trans hnone

theorem view_parse (f : Firmware) (input : List UInt8) :
    (step strtof f.sys (.parse input)).view m = (f.sys.view m).parseFor strtof m input :=
  view_mainParse strtof m f.sys input

/-- The parse phase. -/
theorem Delivers.parse {f : Firmware} {t : Line} (h : Delivers strtof m f t)
    (beyond : List UInt8) :
    Delivers strtof m (firmwareStep strtof f (.parse beyond)) (lineStep strtof m t .parse) := by
  unfold firmwareStep lineStep
  by_cases hflag : f.rx1Flag = 1
  · simp only [if_pos hflag]
    have hp := h.pending hflag beyond
    have hw := step_wired strtof f.sys (.parse (cString (f.uart1RxBuffer ++ beyond))) h.wired
    cases hinbox : t.inbox with
    | none =>
      rw [hinbox, Option.bind_none] at hp
      refine ⟨hw, ?_, fun h0 => absurd (show (0 : UInt8) = 1 from h0) (by decide), fun _ => hinbox⟩
      rw [view_parse, parseFor_of_none strtof m hp, h.view]
    | some msg =>
      rw [hinbox, Option.bind_some] at hp
      refine ⟨hw, ?_, fun h0 => absurd (show (0 : UInt8) = 1 from h0) (by decide), fun _ => rfl⟩
      rw [view_parse, parseFor_congr strtof m hp, h.view]
  · simp only [if_neg hflag, h.idle hflag]
    exact h

end Commands

/-! ## Every run -/

section Runs

variable (strtof : List UInt8 → ℚ) (m : Motor)

/-- A firmware step is the motor's own step, or none. -/
theorem delivers_none (f : Firmware) (t : Line) (e : FirmwareEvent) (h : Delivers strtof m f t)
    (hc : ReadAsSent strtof m f e) (he : e.forMotor m = none) :
    Delivers strtof m (firmwareStep strtof f e) t := by
  cases e with
  | adc1 ad angle =>
    refine h.sys_none (e := .adc1 ad angle) ?_
    simpa [FirmwareEvent.forMotor, Event.forMotor] using he
  | adc3 ad angle =>
    refine h.sys_none (e := .adc3 ad angle) ?_
    simpa [FirmwareEvent.forMotor, Event.forMotor] using he
  | tmr5 => cases he
  | apply => cases he
  | uart msg =>
    have hu := h.uart hc
    simp only [FirmwareEvent.forMotor, ite_eq_right_iff, reduceCtorEq, imp_false] at he
    rwa [if_neg he] at hu
  | parse beyond => cases he

theorem delivers_some (f : Firmware) (t : Line) (e : FirmwareEvent) (e' : LineEvent)
    (h : Delivers strtof m f t) (hc : ReadAsSent strtof m f e) (he : e.forMotor m = some e') :
    Delivers strtof m (firmwareStep strtof f e) (lineStep strtof m t e') := by
  cases e with
  | adc1 ad angle =>
    simp only [FirmwareEvent.forMotor, Option.ite_none_right_eq_some, Option.some.injEq] at he
    obtain ⟨hm, rfl⟩ := he
    exact h.sys_some (e := .adc1 ad angle) (if_pos hm)
  | adc3 ad angle =>
    simp only [FirmwareEvent.forMotor, Option.ite_none_right_eq_some, Option.some.injEq] at he
    obtain ⟨hm, rfl⟩ := he
    exact h.sys_some (e := .adc3 ad angle) (if_pos hm)
  | tmr5 => cases he; exact h.sys_some (e := .tmr5) rfl
  | apply => cases he; exact h.sys_some (e := .apply) rfl
  | uart msg =>
    have hu := h.uart hc
    simp only [FirmwareEvent.forMotor, Option.ite_none_right_eq_some, Option.some.injEq] at he
    obtain ⟨hg, rfl⟩ := he
    rwa [if_pos hg] at hu
  | parse beyond => cases he; exact h.parse beyond

theorem firmwareBoot_delivers (b : BootInputs) :
    Delivers strtof m (firmwareBoot b) ⟨(boot b).view m, none⟩ :=
  ⟨boot_wired b, rfl, fun h => absurd (show (0 : UInt8) = 1 from h) (by decide), fun _ => rfl⟩

/-- Seen through one motor, a run that reads every command as sent is a run of that motor
with its inbox. -/
theorem run_delivers (b : BootInputs) (evs : List FirmwareEvent)
    (hc : AllSteps (ReadAsSent strtof m) (firmwareStep strtof) (firmwareBoot b) evs) :
    Delivers strtof m (run (firmwareStep strtof) (firmwareBoot b) evs)
      (run (lineStep strtof m) ⟨(boot b).view m, none⟩
        (evs.filterMap (FirmwareEvent.forMotor m))) :=
  run_simulates (delivers_none strtof m) (delivers_some strtof m) evs _ _
    (firmwareBoot_delivers strtof m b) hc

/-- **Noninterference.**  Two runs with the same readings of a motor at boot and the same
events of that motor, in which every command for it is read as it was sent, end with the
same record, modulator, filters, staged parameters and compare registers of that motor,
whatever the other motor did. -/
theorem noninterference (b b' : BootInputs) (evs evs' : List FirmwareEvent)
    (hfg : ∀ k, (b.firstGet m k).own m = (b'.firstGet m k).own m)
    (hai : ∀ k, (b.angleInit m k).own m = (b'.angleInit m k).own m)
    (hev : evs.filterMap (FirmwareEvent.forMotor m) = evs'.filterMap (FirmwareEvent.forMotor m))
    (hc : AllSteps (ReadAsSent strtof m) (firmwareStep strtof) (firmwareBoot b) evs)
    (hc' : AllSteps (ReadAsSent strtof m) (firmwareStep strtof) (firmwareBoot b') evs') :
    (run (firmwareStep strtof) (firmwareBoot b) evs).sys.view m =
      (run (firmwareStep strtof) (firmwareBoot b') evs').sys.view m := by
  have hboot : (boot b).view m = (boot b').view m := by
    rw [view_boot, view_boot, funext hfg, funext hai]
  rw [(run_delivers strtof m b evs hc).view, (run_delivers strtof m b' evs' hc').view, hev, hboot]

/-- A message that fits in the buffer and contains a NUL, while nothing waits to be parsed. -/
theorem readAsSent_of_nul {f : Firmware} {msg : List UInt8}
    (hbuf : f.uart1RxBuffer.length = RX_BUFFER_SIZE) (hmsg : msg.length ≤ RX_BUFFER_SIZE)
    (h : (0 : UInt8) ∈ msg) (hflag : f.rx1Flag ≠ 1) : ReadAsSent strtof m f (.uart msg) :=
  ⟨fun beyond => by rw [cString_rxWrite hbuf hmsg h], fun _ h1 => absurd h1 hflag⟩

end Runs

theorem noninterference_terminated :
    (run (firmwareStep finiteStrtof) (firmwareBoot (.const (.both ⟨0, 0⟩ 0)))
        [.uart (cstr "Id_2:1.234" ++ [0]), .parse [], .uart (cstr "Iq_1:5" ++ [0]),
          .parse []]).sys.view .M1 =
      (run (firmwareStep finiteStrtof) (firmwareBoot (.const (.both ⟨0, 0⟩ 0)))
        [.parse [], .uart (cstr "Iq_1:5" ++ [0]), .parse []]).sys.view .M1 := by
  have h1 : (cstr "Id_2:1.234" ++ [0]).length ≤ RX_BUFFER_SIZE := by decide +kernel
  have h2 : (cstr "Iq_1:5" ++ [0]).length ≤ RX_BUFFER_SIZE := by decide +kernel
  refine noninterference finiteStrtof .M1 _ _ _ _ (fun _ => rfl) (fun _ => rfl)
    (by decide +kernel) ?_ ?_
  · exact ⟨readAsSent_of_nul _ _ rfl h1 (by simp) (by simp [firmwareBoot]), trivial,
      readAsSent_of_nul _ _ (by decide +kernel) h2 (by simp) (by decide +kernel), trivial, trivial⟩
  · exact ⟨trivial, readAsSent_of_nul _ _ (by decide +kernel) h2 (by simp) (by decide +kernel),
      trivial, trivial⟩

/-- Unterminated, the number of motor 2's message completes the one of motor 1's: the staged
`Iq` of motor 1 is 5.234 instead of 5. -/
theorem residue_interferes :
    let boot := firmwareBoot (.const (.both ⟨0, 0⟩ 0))
    let evs : List FirmwareEvent :=
      [.uart (cstr "Id_2:1.234"), .parse [], .uart (cstr "Iq_1:5"), .parse []]
    let evs' : List FirmwareEvent := [.parse [], .uart (cstr "Iq_1:5"), .parse []]
    evs.filterMap (FirmwareEvent.forMotor .M1) = evs'.filterMap (FirmwareEvent.forMotor .M1) ∧
      (run (firmwareStep finiteStrtof) boot evs).sys.pidParams1.Iq = 5.234 ∧
      (run (firmwareStep finiteStrtof) boot evs').sys.pidParams1.Iq = 5 := by
  decide +kernel

end At32Foc
