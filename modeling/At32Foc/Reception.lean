import At32Foc.Lib.Dma
import At32Foc.Main

/-!
# The receive buffer

Commands reach `parse_and_set_pid` through `uart1_rx_buffer`: the RX DMA writes a
message from index 0 over what is there (in loop mode, so a message past the end
continues at index 0), the idle interrupt re-arms it and sets `rx1_flag`, and the
main loop parses the buffer as a C string.  Nothing writes a
terminator, so the string runs on into the bytes that earlier messages left, up to
the first NUL.  `Firmware` is `Sys` with this buffer; its parse phase is the one of
`Sys` on the string found there.
-/

namespace At32Foc

open ControlLib

/-! ## Algorithm -/

def RX_BUFFER_SIZE : ℕ := 64

structure Firmware where
  sys : Sys
  uart1RxBuffer : List UInt8
  rx1Flag : UInt8

/-- DMA2 channel 1 as `usartdmarecv` leaves it: loop mode, the whole buffer. -/
def rxChannel : DmaChannel := .armed RX_BUFFER_SIZE true

/-- The RX DMA stores a message, from the state `usartdmarecv` leaves. -/
def rxWrite (msg buf : List UInt8) : List UInt8 := (run DmaChannel.store (rxChannel, buf) msg).2

/-- `USART1_IRQHandler`, once a message is in the buffer. -/
def usart1IRQHandler (f : Firmware) : Firmware := { f with rx1Flag := 1 }

inductive FirmwareEvent where
  | adc1 (ad : ADBuffer) (angle : ℚ)
  | adc3 (ad : ADBuffer) (angle : ℚ)
  | tmr5
  | apply
  /-- A message arrives and the line goes idle. -/
  | uart (msg : List UInt8)
  /-- The parse phase; `beyond` is what memory holds after the buffer. -/
  | parse (beyond : List UInt8)

def firmwareStep (strtof : List UInt8 → ℚ) (f : Firmware) : FirmwareEvent → Firmware
  | .adc1 ad angle => { f with sys := step strtof f.sys (.adc1 ad angle) }
  | .adc3 ad angle => { f with sys := step strtof f.sys (.adc3 ad angle) }
  | .tmr5 => { f with sys := step strtof f.sys .tmr5 }
  | .apply => { f with sys := step strtof f.sys .apply }
  | .uart msg => usart1IRQHandler { f with uart1RxBuffer := rxWrite msg f.uart1RxBuffer }
  | .parse beyond =>
    if f.rx1Flag = 1 then
      let sys := step strtof f.sys (.parse (cString (f.uart1RxBuffer ++ beyond)))
      { f with sys := sys, rx1Flag := 0 }
    else f

def firmwareBoot (b : BootInputs) : Firmware := ⟨boot b, List.replicate RX_BUFFER_SIZE 0, 0⟩

/-! ## Commands -/

/-- What a string says to a motor: the name, and its number by `strtof` and `strtol`. -/
def commandFor (strtof : List UInt8 → ℚ) (m : Motor) (input : List UInt8) :
    Option (List UInt8 × ℚ × ℤ) :=
  match parseName input with
  | none => none
  | some (m', name, text) => if m' = m then some (name, strtof text, strtol text) else none

/-- A parameter setting uses its text through the two conversions only. -/
theorem setParam_congr {F : Type} {strtof : List UInt8 → F} {text text' : List UInt8}
    (hf : strtof text = strtof text') (hl : strtol text = strtol text') (name : List UInt8)
    (pid : PIDParams F) : setParam strtof name text pid = setParam strtof name text' pid := by
  unfold setParam
  rw [hf, hl]

/-- A message that fits covers the head of the buffer, and the rest stays. -/
theorem rxWrite_of_length_le {msg buf : List UInt8} (hbuf : buf.length = RX_BUFFER_SIZE)
    (hmsg : msg.length ≤ RX_BUFFER_SIZE) : rxWrite msg buf = msg ++ buf.drop msg.length := by
  have h := DmaChannel.store_run msg rxChannel [] (buf.take msg.length) (buf.drop msg.length) rfl
    le_rfl hmsg rfl (by rw [List.length_take, hbuf, Nat.min_eq_left hmsg])
  rw [List.take_append_drop] at h
  exact h

@[simp] theorem rxWrite_length (msg buf : List UInt8) : (rxWrite msg buf).length = buf.length :=
  DmaChannel.store_run_length (rxChannel, buf) msg

/-- A message that fits and contains a NUL is read as it was sent. -/
theorem cString_rxWrite {msg buf : List UInt8} (hbuf : buf.length = RX_BUFFER_SIZE)
    (hmsg : msg.length ≤ RX_BUFFER_SIZE) (h : (0 : UInt8) ∈ msg) (beyond : List UInt8) :
    cString (rxWrite msg buf ++ beyond) = cString msg := by
  rw [rxWrite_of_length_le hbuf hmsg, List.append_assoc, cString_append h]

end At32Foc
