import At32Foc.Lib.SerialPort
import At32Foc.TelemetryRace

/-!
# Printing on the telemetry port

`PRINT_UART` is USART1, the port DMA1 channel 7 sends the telemetry on.  `fputc` of
`usart_1.c` waits for an empty data register, writes to it, and waits until the
transmission is complete; the channel writes to the same register whenever it is empty.
The main loop prints, and the CAN handler, which preempts it, prints as well.  All of
this is one step function (`usartStep`), over that of `txStep`.

* `Printed`: a printer that is about to write finds no printed byte in the register.
* `printed_bytes_sent`: every printed byte is sent, once and in order, and before the
  call that prints it returns.
-/

namespace At32Foc

open ControlLib

/-! ## Algorithm -/

inductive Printer where
  | main
  /-- `USBFS_L_CAN1_RX0_IRQHandler`. -/
  | can
  deriving Repr, DecidableEq

inductive Writer where
  | printer (p : Printer)
  /-- Transfer number `k` of DMA1 channel 7. -/
  | transfer (k : ℕ)
  deriving Repr, DecidableEq

/-- Where a printer is in `fputc`. -/
inductive FputcPc where
  | idle
  /-- In the wait for `USART_TDBE_FLAG`. -/
  | tdbe (ch : UInt8)
  | transmit (ch : UInt8)
  /-- In the wait for `USART_TDC_FLAG`. -/
  | tdc
  deriving Repr, DecidableEq

abbrev SentByte : Type := Writer × UInt8

structure Usart where
  tx : Tx
  port : SerialPort SentByte
  fputc : Printer → FputcPc
  /-- The CAN handler runs. -/
  inCan : Bool
  /-- The arguments of the calls of `fputc`. -/
  called : Printer → List UInt8
  /-- The transfers that have lost a byte, and to whom. -/
  lost : List (ℕ × Printer)

namespace Usart

/-- The byte DMA1 channel 7 would send next. -/
def request (s : Usart) : Option UInt8 :=
  if s.tx.ch.Active then s.tx.uart1TxBuffer[s.tx.ch.index]? else none

/-- The main loop runs, and is not in `USART1_SendFloatArray`; or the handler runs. -/
def MayPrint (s : Usart) : Printer → Prop
  | .main => s.inCan = false ∧ s.tx.pc = .idle
  | .can => s.inCan = true

instance (s : Usart) : ∀ p, Decidable (s.MayPrint p)
  | .main => inferInstanceAs (Decidable (_ ∧ _))
  | .can => inferInstanceAs (Decidable (_ = _))

def setPc (p : Printer) (pc : FputcPc) (s : Usart) : Usart :=
  { s with fputc := Function.update s.fputc p pc }

/-- The transfer whose byte a write of `fputc` would overwrite. -/
def overwritten (s : Usart) : Option ℕ :=
  match s.port.dt with
  | some (.transfer k, _) => some k
  | _ => none

/-- The write of `fputc`. -/
def write (p : Printer) (ch : UInt8) (s : Usart) : Usart :=
  { s with
    port := s.port.transmit (.printer p, ch)
    lost := s.lost ++ s.overwritten.toList.map fun k => (k, p)
    fputc := Function.update s.fputc p .tdc }

/-- A call of `fputc` begins. -/
def call (p : Printer) (ch : UInt8) (s : Usart) : Usart :=
  { s.setPc p (.tdbe ch) with called := Function.update s.called p (s.called p ++ [ch]) }

/-- The next step of a call of `fputc`. -/
def fputcStep (p : Printer) (s : Usart) : Usart :=
  match s.fputc p with
  | .idle => s
  | .tdbe ch => if s.port.dt = none then s.setPc p (.transmit ch) else s
  | .transmit ch => s.write p ch
  | .tdc => if s.port.tdc = true then s.setPc p .idle else s

/-- DMA1 channel 7 fills an empty data register. -/
def dmaSend (s : Usart) : Usart :=
  match s.port.dt, s.request with
  | none, some b =>
    { s with tx := txStep s.tx .send, port := s.port.put (.transfer s.tx.frames.length, b) }
  | _, _ => s

end Usart

inductive UsartEvent where
  /-- A step of the main loop in `USART1_SendFloatArray`. -/
  | call (data : { data : List UInt32 // data.length ≤ N })
  | write
  | enable
  /-- DMA1 channel 7 and its handler. -/
  | send
  | irq
  /-- A call of `fputc`, and the steps it takes. -/
  | fputc (p : Printer) (ch : UInt8)
  | step (p : Printer)
  | canEnter
  | canLeave
  /-- The port moves a byte to its shift register, and has sent one. -/
  | load
  | finish

/-- A step of `USART1_SendFloatArray`, which the main loop takes outside `fputc`. -/
def Usart.sendFloatArray (e : TxEvent) (s : Usart) : Usart :=
  if s.inCan = false ∧ s.fputc .main = .idle then { s with tx := txStep s.tx e } else s

def usartStep (s : Usart) : UsartEvent → Usart
  | .call data => s.sendFloatArray (.call data)
  | .write => s.sendFloatArray .write
  | .enable => s.sendFloatArray .enable
  | .send => s.dmaSend
  | .irq => { s with tx := txStep s.tx .irq }
  | .fputc p ch => if s.MayPrint p ∧ s.fputc p = .idle then s.call p ch else s
  | .step p => if s.MayPrint p then s.fputcStep p else s
  | .canEnter => { s with inCan := true }
  | .canLeave => if s.fputc .can = .idle then { s with inCan := false } else s
  | .load => { s with port := s.port.load }
  | .finish => { s with port := s.port.finish }

def usartBoot : Usart := ⟨txBoot, .reset, fun _ => .idle, false, fun _ => [], []⟩

section Fputc

variable (s : Usart) {p q : Printer} (pc : FputcPc) (ch : UInt8)

@[simp] theorem Usart.setPc_self : (s.setPc p pc).fputc p = pc := Function.update_self ..

theorem Usart.setPc_of_ne (h : q ≠ p) : (s.setPc p pc).fputc q = s.fputc q :=
  Function.update_of_ne h ..

@[simp] theorem Usart.write_self : (s.write p ch).fputc p = .tdc := Function.update_self ..

theorem Usart.write_of_ne (h : q ≠ p) : (s.write p ch).fputc q = s.fputc q :=
  Function.update_of_ne h ..

end Fputc

/-! ## Printed bytes -/

def SentByte.isPrinted (x : SentByte) : Bool :=
  match x.1 with
  | .printer _ => true
  | .transfer _ => false

def SentByte.isBy (w : Writer) (x : SentByte) : Bool := x.1 = w

/-- What a writer has put on the wire or into the port, and nobody has overwritten. -/
def bytesBy (w : Writer) (port : SerialPort SentByte) : List UInt8 :=
  (port.queue.filter (SentByte.isBy w)).map Prod.snd

/-- The byte a call has yet to write. -/
def FputcPc.pending : FputcPc → List UInt8
  | .idle | .tdc => []
  | .tdbe ch | .transmit ch => [ch]

structure Printed (s : Usart) : Prop where
  bytes : ∀ p, bytesBy (.printer p) s.port ++ (s.fputc p).pending = s.called p
  complete : s.port.tdc = true → ∀ x ∈ s.port.inFlight, x.isPrinted = false
  /-- The handler may have printed since the main loop looked, and then still waits. -/
  transmit : ∀ p ch, s.fputc p = .transmit ch → (∀ x, s.port.dt = some x → x.isPrinted = false) ∨
    p = .main ∧ s.inCan = true ∧ s.fputc .can = .tdc
  idle : ∀ p, s.fputc p = .idle → ∀ x ∈ s.port.inFlight, x.1 ≠ .printer p
  outside : s.inCan = false → s.fputc .can = .idle

section Bytes

variable {w : Writer} {port : SerialPort SentByte} {x : SentByte}

@[simp] theorem bytesBy_load (w : Writer) (port : SerialPort SentByte) :
    bytesBy w port.load = bytesBy w port := by
  rw [bytesBy, SerialPort.load_queue, bytesBy]

@[simp] theorem bytesBy_finish (w : Writer) (port : SerialPort SentByte) :
    bytesBy w port.finish = bytesBy w port := by
  rw [bytesBy, SerialPort.finish_queue, bytesBy]

theorem bytesBy_put (hdt : ∀ y, port.dt = some y → y.1 ≠ w) :
    bytesBy w (port.put x) = bytesBy w port ++ if x.1 = w then [x.2] else [] := by
  have hq := SerialPort.filter_queue_put (SentByte.isBy w) (a := x)
    fun y hy => decide_eq_false (hdt y hy)
  rw [bytesBy, hq, List.map_append, bytesBy]
  by_cases hx : x.1 = w
  · simp [SentByte.isBy, hx]
  · simp [SentByte.isBy, hx]

theorem bytesBy_transmitted (w : Writer) (s : Usart) (p : Printer) (ch : UInt8) :
    bytesBy w (s.write p ch).port = bytesBy w (s.port.put (.printer p, ch)) := rfl

theorem ne_printer_of_not_isPrinted (hx : x.isPrinted = false) (p : Printer) :
    x.1 ≠ .printer p := by
  intro h
  simp [SentByte.isPrinted, h] at hx

end Bytes

section Printed

variable {s : Usart}

theorem Printed.dt_unprinted (h : Printed s) {p : Printer} {ch : UInt8} (hm : s.MayPrint p)
    (hp : s.fputc p = .transmit ch) : ∀ x, s.port.dt = some x → x.isPrinted = false := by
  rcases h.transmit p ch hp with hdt | ⟨rfl, hin, -⟩
  · exact hdt
  · cases hm.1.symm.trans hin

/-- A printer goes on without writing. -/
theorem Printed.setPc (h : Printed s) {p : Printer} {pc : FputcPc} (hm : s.MayPrint p)
    (hb : pc.pending = (s.fputc p).pending) (ht : ∀ ch, pc = .transmit ch → s.port.dt = none)
    (hi : pc = .idle → ∀ x ∈ s.port.inFlight, x.1 ≠ .printer p)
    (hd : s.fputc p = .tdc → s.port.tdc = true) : Printed (s.setPc p pc) where
  bytes q := by
    by_cases hqp : q = p
    · subst hqp
      rw [Usart.setPc_self, hb]
      exact h.bytes q
    · rw [Usart.setPc_of_ne _ _ hqp]
      exact h.bytes q
  complete := h.complete
  transmit q ch hq := by
    by_cases hqp : q = p
    · subst hqp
      rw [Usart.setPc_self] at hq
      exact .inl fun x hx => by rw [show s.port.dt = some x from hx] at ht; cases ht ch hq
    · rw [Usart.setPc_of_ne _ _ hqp] at hq
      refine (h.transmit q ch hq).elim .inl fun ⟨hmain, _, hcan⟩ => .inl fun x hx => ?_
      have hp : p = .can := by
        cases p with
        | main => exact absurd hmain hqp
        | can => rfl
      exact h.complete (hd (hp ▸ hcan)) x (SerialPort.mem_inFlight_of_dt hx)
  idle q hq := by
    by_cases hqp : q = p
    · subst hqp
      exact hi (by rwa [Usart.setPc_self] at hq)
    · exact h.idle q (by rwa [Usart.setPc_of_ne _ _ hqp] at hq)
  outside hin := by
    have hp : Printer.can ≠ p := by
      rintro rfl
      cases (show s.inCan = true from hm).symm.trans hin
    rw [Usart.setPc_of_ne _ _ hp]
    exact h.outside hin

theorem Printed.call (h : Printed s) {p : Printer} (ch : UInt8) (hm : s.MayPrint p)
    (hp : s.fputc p = .idle) : Printed (s.call p ch) where
  bytes q := by
    have hq := h.bytes q
    by_cases hqp : q = p
    · subst hqp
      rw [hp] at hq
      simp only [Usart.call, Usart.setPc, Function.update_self, ← hq, FputcPc.pending,
        List.append_nil]
    · simp only [Usart.call, Usart.setPc, Function.update_of_ne hqp]
      exact hq
  complete := h.complete
  transmit q ch' hq := by
    by_cases hqp : q = p
    · subst hqp
      simp [Usart.call] at hq
    · simp only [Usart.call, Usart.setPc_of_ne _ _ hqp] at hq
      refine (h.transmit q ch' hq).imp_right fun ⟨hmain, hin, hcan⟩ => ⟨hmain, hin, ?_⟩
      have hne : Printer.can ≠ p := by
        rintro rfl
        cases hp.symm.trans hcan
      simp only [Usart.call, Usart.setPc_of_ne _ _ hne]
      exact hcan
  idle q hq := by
    have hqp : q ≠ p := by
      rintro rfl
      simp [Usart.call] at hq
    simp only [Usart.call, Usart.setPc_of_ne _ _ hqp] at hq
    exact h.idle q hq
  outside hin := by
    have hne : Printer.can ≠ p := by
      rintro rfl
      cases (show s.inCan = true from hm).symm.trans hin
    simp only [Usart.call, Usart.setPc_of_ne _ _ hne]
    exact h.outside hin

theorem Printed.write (h : Printed s) {p : Printer} {ch : UInt8} (hm : s.MayPrint p)
    (hp : s.fputc p = .transmit ch) : Printed (s.write p ch) where
  bytes q := by
    have hdt := h.dt_unprinted hm hp
    have hq := h.bytes q
    rw [bytesBy_transmitted, bytesBy_put fun y hy => ne_printer_of_not_isPrinted (hdt y hy) q]
    by_cases hqp : q = p
    · subst hqp
      rw [hp] at hq
      rw [Usart.write_self, if_pos rfl, FputcPc.pending, List.append_nil]
      exact hq
    · rw [Usart.write_of_ne _ _ hqp, if_neg fun hw => hqp (Writer.printer.inj hw).symm,
        List.append_nil]
      exact hq
  complete := nofun
  transmit q ch' hq := by
    cases p with
    | main =>
      cases q with
      | main => simp at hq
      | can =>
        rw [Usart.write_of_ne _ _ (by decide), h.outside hm.1] at hq
        cases hq
    | can =>
      cases q with
      | main => exact .inr ⟨rfl, hm, s.write_self ch⟩
      | can => simp at hq
  idle q hq x hx := by
    have hqp : q ≠ p := by
      rintro rfl
      simp at hq
    rw [Usart.write_of_ne _ _ hqp] at hq
    rcases SerialPort.mem_inFlight_put (p := s.port) hx with rfl | hx
    · exact fun hw => hqp (Writer.printer.inj hw).symm
    · exact h.idle q hq x hx
  outside hin := by
    cases p with
    | main => exact h.outside hin
    | can => cases (show s.inCan = true from hm).symm.trans hin

theorem Printed.fputcStep (h : Printed s) {p : Printer} (hm : s.MayPrint p) :
    Printed (s.fputcStep p) := by
  unfold Usart.fputcStep
  split
  · exact h
  · rename_i ch hp
    split_ifs with hdt
    · exact h.setPc hm (by rw [hp]; rfl) (fun _ _ => hdt) nofun (by simp [hp])
    · exact h
  · exact h.write hm ‹_›
  · rename_i hp
    split_ifs with htdc
    · exact h.setPc hm (by rw [hp]; rfl) nofun
        (fun _ x hx => ne_printer_of_not_isPrinted (h.complete htdc x hx) p) (fun _ => htdc)
    · exact h

theorem Printed.sendFloatArray (h : Printed s) (e : TxEvent) : Printed (s.sendFloatArray e) := by
  unfold Usart.sendFloatArray
  split_ifs
  · exact ⟨h.bytes, h.complete, h.transmit, h.idle, h.outside⟩
  · exact h

theorem Printed.dmaSend (h : Printed s) : Printed s.dmaSend := by
  unfold Usart.dmaSend
  split
  · rename_i b hdt hreq
    refine ⟨fun p => ?_, fun htdc x hx => ?_, fun p ch hp => .inl fun x hx => ?_,
      fun p hp x hx => ?_, h.outside⟩
    · rw [bytesBy_put (by simp [hdt]), if_neg nofun, List.append_nil]
      exact h.bytes p
    · rcases SerialPort.mem_inFlight_put hx with rfl | hx
      · rfl
      · exact h.complete htdc x hx
    · cases Option.some.inj hx
      rfl
    · rcases SerialPort.mem_inFlight_put hx with rfl | hx
      · nofun
      · exact h.idle p hp x hx
  · exact h

theorem Printed.canEnter (h : Printed s) : Printed { s with inCan := true } where
  bytes := h.bytes
  complete := h.complete
  transmit p ch hp := (h.transmit p ch hp).imp_right fun ⟨hmain, _, hcan⟩ => ⟨hmain, rfl, hcan⟩
  idle := h.idle
  outside := nofun

theorem Printed.canLeave (h : Printed s) (hidle : s.fputc .can = .idle) :
    Printed { s with inCan := false } where
  bytes := h.bytes
  complete := h.complete
  transmit p ch hp := (h.transmit p ch hp).imp_right fun ⟨_, _, hcan⟩ => by
    rw [hidle] at hcan
    cases hcan
  idle := h.idle
  outside _ := hidle

theorem Printed.load (h : Printed s) : Printed { s with port := s.port.load } where
  bytes p := by rw [bytesBy_load, h.bytes]
  complete htdc x hx := by
    rw [SerialPort.load_tdc] at htdc
    exact h.complete htdc x (SerialPort.mem_inFlight_load hx)
  transmit p ch hp := (h.transmit p ch hp).imp_left fun hdt x hx => hdt x (SerialPort.load_dt hx)
  idle p hp x hx := h.idle p hp x (SerialPort.mem_inFlight_load hx)
  outside := h.outside

theorem Printed.finish (h : Printed s) : Printed { s with port := s.port.finish } where
  bytes p := by rw [bytesBy_finish, h.bytes]
  complete htdc x hx := by
    rcases SerialPort.finish_tdc htdc with htdc | hnil
    · exact h.complete htdc x (SerialPort.mem_inFlight_finish hx)
    · rw [hnil] at hx
      cases hx
  transmit p ch hp := (h.transmit p ch hp).imp_left fun hdt x hx =>
    hdt x (by rwa [SerialPort.finish_dt] at hx)
  idle p hp x hx := h.idle p hp x (SerialPort.mem_inFlight_finish hx)
  outside := h.outside

end Printed

theorem usartStep_printed (s : Usart) (e : UsartEvent) (h : Printed s) :
    Printed (usartStep s e) := by
  cases e with
  | call data => exact h.sendFloatArray _
  | write => exact h.sendFloatArray _
  | enable => exact h.sendFloatArray _
  | send => exact h.dmaSend
  | irq => exact ⟨h.bytes, h.complete, h.transmit, h.idle, h.outside⟩
  | fputc p ch =>
    rw [usartStep]
    split_ifs with hp
    · exact h.call ch hp.1 hp.2
    · exact h
  | step p =>
    rw [usartStep]
    split_ifs with hp
    · exact h.fputcStep hp
    · exact h
  | canEnter => exact h.canEnter
  | canLeave =>
    rw [usartStep]
    split_ifs with hp
    · exact h.canLeave hp
    · exact h
  | load => exact h.load
  | finish => exact h.finish

theorem usartBoot_printed : Printed usartBoot where
  bytes _ := rfl
  complete := nofun
  transmit := nofun
  idle := nofun
  outside _ := rfl

theorem run_printed (evs : List UsartEvent) : Printed (run usartStep usartBoot evs) :=
  run_invariant usartStep_printed evs usartBoot usartBoot_printed

/-- **No printed byte is lost.**  In every state of every run the bytes of a printer that are
on the wire or in the port, and the one it is about to write, are the arguments of its calls
of `fputc`, in order; and while it is outside a call they are all on the wire. -/
theorem printed_bytes_sent (evs : List UsartEvent) (p : Printer) :
    let s := run usartStep usartBoot evs
    bytesBy (.printer p) s.port ++ (s.fputc p).pending = s.called p ∧
      (s.fputc p = .idle →
        (s.port.wire.filter (SentByte.isBy (.printer p))).map Prod.snd = s.called p) := by
  intro s
  have h : Printed s := run_printed evs
  refine ⟨h.bytes p, fun hp => ?_⟩
  have hnone : s.port.inFlight.filter (SentByte.isBy (.printer p)) = [] :=
    List.filter_eq_nil_iff.mpr fun x hx => by simpa [SentByte.isBy] using h.idle p hp x hx
  have hb := h.bytes p
  rwa [hp, FputcPc.pending, List.append_nil, bytesBy, SerialPort.queue, List.filter_append, hnone,
    List.append_nil] at hb

end At32Foc
