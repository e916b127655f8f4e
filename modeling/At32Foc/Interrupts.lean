import At32Foc.Lib.Preemption
import At32Foc.CurrentOffset
import At32Foc.EncoderTransaction
import At32Foc.MainLoop

/-!
# The interrupt system

The handlers of `at32f403a_407_int.c` at the preemption levels of `wk_nvic_config`, each
in steps between which a more urgent one may run: the control handlers wait inside an
encoder transaction for the SPI handler that ends it, and the timer tick toggles the LED by
a load and a store of the port that also holds a chip select.  Below all of them runs the
main loop, one load or store at a time.

* `board`: the system of handlers, in the sense of `InterruptSystem`.
* `control_steps`, `tick_steps`: the steps of a handler make up the handler of `Sys`.
* `handlers_are_atomic`: so every run, with handlers nested in any way, is a run of the
  main loop in which they are indivisible (`mainLoopStep`).
-/

namespace At32Foc

open ControlLib

/-! ## Lines -/

/-- The lines that `wk_nvic_config` enables. -/
inductive IRQn where
  /-- The ADC transfer of a motor: DMA1 channel 2 (ADC1, motor 1), channel 1 (ADC3, motor 2). -/
  | dma1Adc (m : Motor)
  /-- The SPI reception of its encoder: DMA1 channel 3 (SPI1), channel 5 (SPI2). -/
  | dma1Spi (m : Motor)
  /-- The USART1 transmission. -/
  | dma1Channel7
  | usbfsLCan1Rx0
  | can1Se
  | usart1
  | tmr5Global
  deriving DecidableEq

/-- The preemption priorities of `wk_nvic_config`. -/
def IRQn.preemptPriority : IRQn → ℕ
  | dma1Adc _ => 1
  | dma1Spi _ => 0
  | dma1Channel7 => 1
  | usbfsLCan1Rx0 => 2
  | can1Se => 2
  | usart1 => 1
  | tmr5Global => 1

/-- The stages of `FocContorl` after the angle. -/
inductive Stage where
  | sampleA
  | sampleB
  | currents
  | control
  | svpwm
  | pwmA
  | pwmB
  | pwmC
  deriving DecidableEq

/-- Where a control handler is. -/
inductive ControlPc where
  | flag
  | start
  | write
  | wait
  | angle (angle : ℚ)
  | stage (k : Stage)
  deriving DecidableEq

/-- Where the handler of the timer is. -/
inductive TickPc where
  | count
  /-- The load and the store of `odt ^= pin`. -/
  | ledLoad
  | ledStore (odt : BitVec 16)
  | reset
  | speed (m : Motor)
  | speedPI (m : Motor)
  | clear
  deriving DecidableEq

/-- What a handler carries from step to step. -/
abbrev IRQn.Local : IRQn → Type
  | dma1Adc _ => ControlPc
  | tmr5Global => TickPc
  | dma1Spi _ | dma1Channel7 | usbfsLCan1Rx0 | can1Se | usart1 => Unit

/-! ## The board -/

structure Board where
  main : MainLoop
  /-- `rx1_flag` is about to be cleared. -/
  parsed : Bool
  encoder : Motor → Encoder
  /-- What each encoder shifts out to the next transaction. -/
  word : Motor → Word
  /-- The ADC buffers and their transfer flags. -/
  adBuffer : Motor → ADBuffer
  adcFdt : Motor → Bool
  /-- The output registers of the ports A and B. -/
  odtA : BitVec 16
  odtB : BitVec 16
  tmr5Ovf : Bool
  txFdt : Bool
  usart1TxDmaStatus : UInt8
  idle : Bool
  rx1Flag : UInt8
  /-- What the parser finds in the receive buffer. -/
  rxText : List UInt8
  canPending : Bool
  canError : Bool
  times : ℤ

namespace Board

def mapSys (f : Sys → Sys) (b : Board) : Board :=
  { b with main := { b.main with sys := f b.main.sys } }

def setEncoder (m : Motor) (e : Encoder) (b : Board) : Board :=
  { b with encoder := Function.update b.encoder m e }

/-- `gpio_bits_set` and `gpio_bits_reset` on the chip select of an encoder, PA4 or PB12. -/
def setCS (m : Motor) (high : Bool) (b : Board) : Board :=
  match m, high with
  | .M1, true => { b with odtA := b.odtA ||| 0x0010#16 }
  | .M1, false => { b with odtA := b.odtA &&& ~~~0x0010#16 }
  | .M2, true => { b with odtB := b.odtB ||| 0x1000#16 }
  | .M2, false => { b with odtB := b.odtB &&& ~~~0x1000#16 }

end Board

/-! ## The control handlers -/

def Sys.drive (m : Motor) (s : Sys) : Drive :=
  match m with
  | .M1 => ⟨s.Motor_1, s.SVpwm_1, s.M1_LPF, s.tmr⟩
  | .M2 => ⟨s.Motor_2, s.SVpwm_2, s.M2_LPF, s.tmr⟩

def Sys.setDrive (m : Motor) (d : Drive) (s : Sys) : Sys :=
  match m with
  | .M1 => { s with Motor_1 := d.pFOC, SVpwm_1 := d.PSVpwm, M1_LPF := d.LPF_M, tmr := d.tmr }
  | .M2 => { s with Motor_2 := d.pFOC, SVpwm_2 := d.PSVpwm, M2_LPF := d.LPF_M, tmr := d.tmr }

/-- `hw` keeps what the handlers have read. -/
def Sys.readAngle (m : Motor) (angle : ℚ) (s : Sys) : Sys :=
  match m with
  | .M1 => { s with hw := { s.hw with mt6701_1 := angle } }
  | .M2 => { s with hw := { s.hw with mt6701_2 := angle } }

def Sys.readAd1 (m : Motor) (ad1 : UInt16) (s : Sys) : Sys :=
  match m with
  | .M1 => { s with hw := { s.hw with Motor1ADValue := { s.hw.Motor1ADValue with ad1 := ad1 } } }
  | .M2 => { s with hw := { s.hw with Motor2ADValue := { s.hw.Motor2ADValue with ad1 := ad1 } } }

def Sys.readAd0 (m : Motor) (ad0 : UInt16) (s : Sys) : Sys :=
  match m with
  | .M1 => { s with hw := { s.hw with Motor1ADValue := { s.hw.Motor1ADValue with ad0 := ad0 } } }
  | .M2 => { s with hw := { s.hw with Motor2ADValue := { s.hw.Motor2ADValue with ad0 := ad0 } } }

def sampleA (hw : Inputs) (pFOC : FOCState ℚ) : FOCState ℚ :=
  if pFOC.current.Mflag = 1 then
    { pFOC with current := { pFOC.current with adA := hw.Motor1ADValue.ad1 } }
  else if pFOC.current.Mflag = 2 then
    { pFOC with current := { pFOC.current with adA := hw.Motor2ADValue.ad1 } }
  else pFOC

def sampleB (hw : Inputs) (pFOC : FOCState ℚ) : FOCState ℚ :=
  if pFOC.current.Mflag = 1 then
    { pFOC with current := { pFOC.current with adB := hw.Motor1ADValue.ad0 } }
  else if pFOC.current.Mflag = 2 then
    { pFOC with current := { pFOC.current with adB := hw.Motor2ADValue.ad0 } }
  else pFOC

/-- The channel of phase A, B and C that a PWM function sets. -/
def setPWMA (p : SetPWMPtr) (pwm : ℚ) (tmr : Timers) : Timers :=
  match p with
  | .setpwm1Channel => { tmr with TMR4 := { tmr.TMR4 with c3dt := phaseCompare pwm } }
  | .setpwm2Channel => { tmr with TMR2 := { tmr.TMR2 with c4dt := phaseCompare pwm } }

def setPWMB (p : SetPWMPtr) (pwm : ℚ) (tmr : Timers) : Timers :=
  match p with
  | .setpwm1Channel => { tmr with TMR4 := { tmr.TMR4 with c2dt := phaseCompare pwm } }
  | .setpwm2Channel => { tmr with TMR2 := { tmr.TMR2 with c2dt := phaseCompare pwm } }

def setPWMC (p : SetPWMPtr) (pwm : ℚ) (tmr : Timers) : Timers :=
  match p with
  | .setpwm1Channel => { tmr with TMR4 := { tmr.TMR4 with c1dt := phaseCompare pwm } }
  | .setpwm2Channel => { tmr with TMR2 := { tmr.TMR2 with c1dt := phaseCompare pwm } }

namespace Stage

/-- A stage on what `FocContorl` works with. -/
def run (hw : Inputs) (d : Drive) : Stage → Drive
  | sampleA => { d with pFOC := At32Foc.sampleA hw d.pFOC }
  | sampleB => { d with pFOC := At32Foc.sampleB hw d.pFOC }
  | currents =>
    let (pFOC, LPF_M) := focCurrents d.pFOC d.LPF_M
    { d with pFOC := pFOC, LPF_M := LPF_M }
  | control => { d with pFOC := focControl d.pFOC }
  | svpwm => { d with PSVpwm := At32Foc.svpwm d.PSVpwm d.pFOC.Ualpha d.pFOC.Ubeta }
  | pwmA => { d with tmr := setPWMA d.pFOC.SetPWM d.PSVpwm.Ta d.tmr }
  | pwmB => { d with tmr := setPWMB d.pFOC.SetPWM d.PSVpwm.Tb d.tmr }
  | pwmC => { d with tmr := setPWMC d.pFOC.SetPWM d.PSVpwm.Tc d.tmr }

def next : Stage → Option Stage
  | sampleA => some sampleB
  | sampleB => some currents
  | currents => some control
  | control => some svpwm
  | svpwm => some pwmA
  | pwmA => some pwmB
  | pwmB => some pwmC
  | pwmC => none

def before : Stage → List Stage
  | sampleA => []
  | sampleB => [sampleA]
  | currents => [sampleA, sampleB]
  | control => [sampleA, sampleB, currents]
  | svpwm => [sampleA, sampleB, currents, control]
  | pwmA => [sampleA, sampleB, currents, control, svpwm]
  | pwmB => [sampleA, sampleB, currents, control, svpwm, pwmA]
  | pwmC => [sampleA, sampleB, currents, control, svpwm, pwmA, pwmB]

/-- What a stage reads from the ADC buffer of the motor. -/
def read (m : Motor) (ad : ADBuffer) (s : Sys) : Stage → Sys
  | sampleA => s.readAd1 m ad.ad1
  | sampleB => s.readAd0 m ad.ad0
  | currents | control | svpwm | pwmA | pwmB | pwmC => s

/-- A stage of the control handler of a motor. -/
def sysStep (m : Motor) (ad : ADBuffer) (s : Sys) (k : Stage) : Sys :=
  let s := k.read m ad s
  s.setDrive m (k.run s.hw (s.drive m))

end Stage

/-- The angle is stored, and the electrical angles follow. -/
def angleStep (m : Motor) (angle : ℚ) (s : Sys) : Sys :=
  let s := s.readAngle m angle
  let d := s.drive m
  s.setDrive m { d with pFOC := getCorrectedElectricalAngle s.hw d.pFOC }

def controlMicro (m : Motor) (pc : ControlPc) (b : Board) : Board × Option ControlPc :=
  let e := b.encoder m
  match pc with
  | .flag =>
    if b.adcFdt m then ({ b with adcFdt := Function.update b.adcFdt m false }, some .start)
    else (b, none)
  | .start => ((b.setEncoder m (encoderStep e (.start (b.word m)))).setCS m false, some .write)
  | .write => (b.setEncoder m (encoderStep e .write), some .wait)
  | .wait =>
    if e.dataReady then
      (b.setEncoder m (encoderStep e .decode),
        some (.angle (mt6701GetAngle (e.rxBuf.getD 0 0) (e.rxBuf.getD 1 0) (e.rxBuf.getD 2 0))))
    else (b, some .wait)
  | .angle angle => (b.mapSys (angleStep m angle), some (.stage .sampleA))
  | .stage k => (b.mapSys (k.sysStep m (b.adBuffer m)), k.next.map .stage)

/-! ## The other handlers -/

/-- `DMA1_Channel3_IRQHandler` and `DMA1_Channel5_IRQHandler`. -/
def spiHandler (m : Motor) (b : Board) : Board :=
  let e := b.encoder m
  if e.DMA_RX.fdt then (b.setEncoder m (encoderStep e .irq)).setCS m true else b

def LED_NUM : ℕ := 1

/-- `led_gpio_pin`: the LED is PA8. -/
def ledGpioPin : List (BitVec 16) := [0x0100#16]

def Sys.calculateSpeed (m : Motor) (s : Sys) : Sys :=
  match m with
  | .M1 =>
    let (p, f) := At32Foc.calculateSpeed s.Motor_1 0.001 s.M1_LPF_Speed
    { s with Motor_1 := p, M1_LPF_Speed := f }
  | .M2 =>
    let (p, f) := At32Foc.calculateSpeed s.Motor_2 0.001 s.M2_LPF_Speed
    { s with Motor_2 := p, M2_LPF_Speed := f }

def Sys.speedPI (m : Motor) (s : Sys) : Sys := s.setFoc m (speedPIControl (s.view m).foc)

/-- `TMR5_GLOBAL_IRQHandler`, with `at32_led_toggle(LED0)` inlined. -/
def tickMicro (pc : TickPc) (b : Board) : Board × Option TickPc :=
  match pc with
  | .count =>
    (b.mapSys fun s => { s with t := s.t + 1 },
      some (if b.main.sys.t + 1 = 100 then .ledLoad else .speed .M1))
  | .ledLoad =>
    -- the checks of the LED's number and of its pin
    if 0 > LED_NUM - 1 ∨ ledGpioPin.getD 0 0 = 0 then (b, some .reset)
    else (b, some (.ledStore b.odtA))
  | .ledStore odt =>
    ({ b.mapSys fun s => { s with LED0 := !s.LED0 } with odtA := odt ^^^ ledGpioPin.getD 0 0 },
      some .reset)
  | .reset => (b.mapSys fun s => { s with t := 0 }, some (.speed .M1))
  | .speed .M1 => (b.mapSys (Sys.calculateSpeed .M1), some (.speed .M2))
  | .speed .M2 => (b.mapSys (Sys.calculateSpeed .M2), some (.speedPI .M1))
  | .speedPI .M1 => (b.mapSys (Sys.speedPI .M1), some (.speedPI .M2))
  | .speedPI .M2 => (b.mapSys (Sys.speedPI .M2), some .clear)
  | .clear => ({ b with tmr5Ovf := false }, none)

def dma1Channel7Handler (b : Board) : Board :=
  if b.txFdt then { b with usart1TxDmaStatus := 1, txFdt := false } else b

def usart1Handler (b : Board) : Board :=
  if b.idle then { b with rx1Flag := 1, idle := false } else b

def usbfsLCan1Rx0Handler (b : Board) : Board :=
  if b.canPending then { b with times := b.times + 1, canPending := false } else b

/-! ## The system -/

def entry : (i : IRQn) → i.Local
  | .dma1Adc _ => .flag
  | .tmr5Global => .count
  | .dma1Spi _ | .dma1Channel7 | .usbfsLCan1Rx0 | .can1Se | .usart1 => ()

def requested : IRQn → Board → Bool
  | .dma1Adc m, b => b.adcFdt m
  | .dma1Spi m, b => (b.encoder m).DMA_RX.fdt
  | .dma1Channel7, b => b.txFdt
  | .usbfsLCan1Rx0, b => b.canPending
  | .can1Se, b => b.canError
  | .usart1, b => b.idle
  | .tmr5Global, b => b.tmr5Ovf

def micro : (i : IRQn) → i.Local → Board → Board × Option i.Local
  | .dma1Adc m, l, b => controlMicro m l b
  | .dma1Spi m, _, b => (spiHandler m b, none)
  | .dma1Channel7, _, b => (dma1Channel7Handler b, none)
  | .usbfsLCan1Rx0, _, b => (usbfsLCan1Rx0Handler b, none)
  | .can1Se, _, b => (b, none)
  | .usart1, _, b => (usart1Handler b, none)
  | .tmr5Global, l, b => tickMicro l b

/-- The next step of `main`: it waits in `USART1_SendFloatArray`, and tests, then clears
`rx1_flag`. -/
def mainThread (strtof : List UInt8 → ℚ) (b : Board) : Board :=
  if b.parsed then { b with rx1Flag := 0, parsed := false }
  else
    match b.main.pc with
    | .send =>
      if b.usart1TxDmaStatus = 0 then b else { b with main := mainStep strtof none b.main }
    | .parse =>
      if b.rx1Flag = 1 then
        { b with main := mainStep strtof (some b.rxText) b.main, parsed := true }
      else { b with main := mainStep strtof none b.main }
    | _ => { b with main := mainStep strtof none b.main }

inductive HardwareEvent where
  /-- A word of an ADC buffer, and the end of its transfer. -/
  | ad0 (m : Motor) (x : UInt16)
  | ad1 (m : Motor) (x : UInt16)
  | adcDone (m : Motor)
  /-- The encoder measures. -/
  | turn (m : Motor) (w : Word)
  /-- The TX channel of an SPI. -/
  | txDma (m : Motor)
  | tmr5
  | txDone
  /-- The receive buffer changes, and the line goes idle. -/
  | rx (text : List UInt8)
  | idle
  | can
  | canError

def hardware (e : HardwareEvent) (b : Board) : Board :=
  match e with
  | .ad0 m x =>
    { b with adBuffer := Function.update b.adBuffer m { b.adBuffer m with ad0 := x } }
  | .ad1 m x =>
    { b with adBuffer := Function.update b.adBuffer m { b.adBuffer m with ad1 := x } }
  | .adcDone m => { b with adcFdt := Function.update b.adcFdt m true }
  | .turn m w => { b with word := Function.update b.word m w }
  | .txDma m => b.setEncoder m (encoderStep (b.encoder m) .txDma)
  | .tmr5 => { b with tmr5Ovf := true }
  | .txDone => { b with txFdt := true }
  | .rx text => { b with rxText := text }
  | .idle => { b with idle := true }
  | .can => { b with canPending := true }
  | .canError => { b with canError := true }

def board (strtof : List UInt8 → ℚ) : InterruptSystem IRQn IRQn.Local Board HardwareEvent where
  level := IRQn.preemptPriority
  requested := requested
  entry := entry
  micro := micro
  thread := mainThread strtof
  hardware := hardware

/-! ## Frame facts -/

namespace Board

@[simp] theorem setEncoder_main (m : Motor) (e : Encoder) (b : Board) :
    (b.setEncoder m e).main = b.main := rfl

@[simp] theorem setCS_main (m : Motor) (high : Bool) (b : Board) :
    (b.setCS m high).main = b.main := by
  cases m <;> cases high <;> rfl

@[simp] theorem setCS_encoder (m : Motor) (high : Bool) (b : Board) :
    (b.setCS m high).encoder = b.encoder := by
  cases m <;> cases high <;> rfl

@[simp] theorem mapSys_main (f : Sys → Sys) (b : Board) :
    (b.mapSys f).main = { b.main with sys := f b.main.sys } := rfl

end Board

@[simp] theorem spiHandler_main (m : Motor) (b : Board) : (spiHandler m b).main = b.main := by
  unfold spiHandler
  dsimp only
  split_ifs
  · rw [Board.setCS_main, Board.setEncoder_main]
  · rfl

theorem hardware_main (e : HardwareEvent) (b : Board) : (hardware e b).main = b.main := by
  cases e <;> rfl

theorem mainThread_main (strtof : List UInt8 → ℚ) (b : Board) :
    (mainThread strtof b).main = b.main ∨
      ∃ msg, (mainThread strtof b).main = mainStep strtof msg b.main := by
  unfold mainThread
  split
  · exact .inl rfl
  · split
    · split
      · exact .inl rfl
      · exact .inr ⟨none, rfl⟩
    · split
      · exact .inr ⟨some b.rxText, rfl⟩
      · exact .inr ⟨none, rfl⟩
    · exact .inr ⟨none, rfl⟩

/-! ## The steps of a control handler -/

theorem adc_isInterrupt (m : Motor) (ad : ADBuffer) (angle : ℚ) :
    (Event.adc m ad angle).isInterrupt = true := by
  cases m <;> rfl

theorem sampleB_sampleA (hw : Inputs) (pFOC : FOCState ℚ) :
    sampleB hw (sampleA hw pFOC) = sampleAD hw pFOC := by
  unfold sampleA sampleAD
  split_ifs with h1 h2
  · simp [sampleB, h1]
  · simp [sampleB, h2]
  · simp [sampleB, h1, h2]

theorem setPWM_phases (p : SetPWMPtr) (a b c : ℚ) (tmr : Timers) :
    setPWMC p c (setPWMB p b (setPWMA p a tmr)) = callSetPWM p a b c tmr := by
  cases p <;> rfl

/-- `FocContorl` is its stages. -/
theorem stages_focContorl (hw : Inputs) (d : Drive) :
    [Stage.sampleA, .sampleB, .currents, .control, .svpwm, .pwmA, .pwmB, .pwmC].foldl
        (Stage.run hw) { d with pFOC := getCorrectedElectricalAngle hw d.pFOC } =
      focContorl hw d := by
  simp only [List.foldl_cons, List.foldl_nil, Stage.run, setPWM_phases, sampleB_sampleA]
  rfl

/-- The state when stage `k` of a control handler is next, from the state where it was
entered: the angle and the ADC words are those that it has read. -/
def upTo (m : Motor) (angle : ℚ) (ad : ADBuffer) (s : Sys) (k : Stage) : Sys :=
  k.before.foldl (Stage.sysStep m ad) (angleStep m angle s)

section Drive

variable (m : Motor) (ad : ADBuffer) (s : Sys) (d : Drive) (k : Stage)

theorem drive_setDrive : (s.setDrive m d).drive m = d := by
  cases m <;> rfl

theorem setDrive_setDrive (d' : Drive) : (s.setDrive m d).setDrive m d' = s.setDrive m d' := by
  cases m <;> rfl

theorem read_setDrive : k.read m ad (s.setDrive m d) = (k.read m ad s).setDrive m d := by
  cases m <;> cases k <;> rfl

/-- A stage on a state whose drive is known. -/
theorem sysStep_setDrive : Stage.sysStep m ad (s.setDrive m d) k =
    (k.read m ad s).setDrive m (k.run (k.read m ad s).hw d) := by
  have hw : ∀ s : Sys, (s.setDrive m d).hw = s.hw := fun s => by cases m <;> rfl
  simp only [Stage.sysStep, read_setDrive, hw, drive_setDrive, setDrive_setDrive]

end Drive

/-- **Control.**  The steps of a control handler make up the handler of `Sys`. -/
theorem control_steps (strtof : List UInt8 → ℚ) (m : Motor) (angle : ℚ) (ad : ADBuffer) (s : Sys) :
    Stage.sysStep m ad (upTo m angle ad s .pwmC) .pwmC =
      step strtof s (.adc m ad angle) := by
  -- the state with everything read
  let r := ((s.readAngle m angle).readAd1 m ad.ad1).readAd0 m ad.ad0
  have hstep : step strtof s (.adc m ad angle) =
      r.setDrive m (focContorl r.hw (s.drive m)) := by
    cases m <;> rfl
  have hdrive : (s.readAngle m angle).drive m = s.drive m := by cases m <;> rfl
  have hangle : getCorrectedElectricalAngle (s.readAngle m angle).hw (s.drive m).pFOC =
      getCorrectedElectricalAngle r.hw (s.drive m).pFOC := by
    cases m <;> rfl
  have hA : ∀ p, sampleA ((s.readAngle m angle).readAd1 m ad.ad1).hw p = sampleA r.hw p := by
    intro p
    cases m <;> rfl
  rw [hstep, ← stages_focContorl]
  simp only [upTo, Stage.before, List.foldl_cons, List.foldl_nil, angleStep, hdrive, hangle,
    sysStep_setDrive, Stage.read, Stage.run, hA]
  rfl

/-- Where a control handler that was entered in `t` has taken the state. -/
def ControlMid (m : Motor) (pc : ControlPc) (t v : MainLoop) : Prop :=
  match pc with
  | .flag | .start | .write | .wait | .angle _ => v = t
  | .stage k => ∃ angle ad, v = { t with sys := upTo m angle ad t.sys k }

theorem controlMicro_mid {m : Motor} {pc : ControlPc} {b b' : Board} {t : MainLoop}
    {pc' : ControlPc} (h : ControlMid m pc t b.main) (hb : controlMicro m pc b = (b', some pc')) :
    ControlMid m pc' t b'.main := by
  cases pc with
  | flag =>
    simp only [controlMicro] at hb
    split_ifs at hb
    · cases hb
      exact h
    · cases hb
  | start =>
    cases hb
    exact (Board.setCS_main m false _).trans h
  | write =>
    cases hb
    exact h
  | wait =>
    simp only [controlMicro] at hb
    split_ifs at hb <;> cases hb <;> exact h
  | angle angle =>
    cases hb
    obtain rfl : b.main = t := h
    exact ⟨angle, ⟨0, 0⟩, rfl⟩
  | stage k =>
    obtain ⟨angle, ad, hv⟩ := h
    simp only [controlMicro, Prod.mk.injEq] at hb
    obtain ⟨rfl, hk⟩ := hb
    rw [ControlMid.eq_def, Board.mapSys_main, hv]
    cases k with
    | sampleA =>
      cases hk
      exact ⟨angle, b.adBuffer m, rfl⟩
    | sampleB =>
      cases hk
      exact ⟨angle, ⟨(b.adBuffer m).ad0, ad.ad1⟩, rfl⟩
    | pwmC => cases hk
    | _ =>
      cases hk
      exact ⟨angle, ad, rfl⟩

/-- It returns at once, or as the handler of `Sys` does. -/
theorem controlMicro_done (strtof : List UInt8 → ℚ) {m : Motor} {pc : ControlPc} {b b' : Board}
    {t : MainLoop} (h : ControlMid m pc t b.main) (hb : controlMicro m pc b = (b', none)) :
    b'.main = t ∨ ∃ ad angle,
      b'.main = { t with sys := step strtof t.sys (.adc m ad angle) } := by
  cases pc with
  | flag =>
    simp only [controlMicro] at hb
    split_ifs at hb
    · cases hb
    · cases hb
      exact .inl h
  | start => cases hb
  | write => cases hb
  | wait =>
    simp only [controlMicro] at hb
    split_ifs at hb
    · cases hb
    · cases hb
  | angle angle => cases hb
  | stage k =>
    obtain ⟨angle, ad, hv⟩ := h
    simp only [controlMicro, Prod.mk.injEq] at hb
    obtain ⟨rfl, hk⟩ := hb
    cases k <;> cases hk
    refine .inr ⟨ad, angle, ?_⟩
    rw [← control_steps]
    simp only [Board.mapSys_main, hv]
    rfl

/-! ## The steps of the tick -/

/-- The count and the LED. -/
def tickCount (s : Sys) : Sys :=
  if s.t + 1 = 100 then { s with t := 0, LED0 := !s.LED0 } else { s with t := s.t + 1 }

def TickMid (pc : TickPc) (t v : MainLoop) : Prop :=
  match pc with
  | .count => v = t
  | .ledLoad | .ledStore _ =>
    t.sys.t + 1 = 100 ∧ v = { t with sys := { t.sys with t := t.sys.t + 1 } }
  | .reset =>
    t.sys.t + 1 = 100 ∧
      v = { t with sys := { t.sys with t := t.sys.t + 1, LED0 := !t.sys.LED0 } }
  | .speed .M1 => v = { t with sys := tickCount t.sys }
  | .speed .M2 => v = { t with sys := (tickCount t.sys).calculateSpeed .M1 }
  | .speedPI .M1 =>
    v = { t with sys := ((tickCount t.sys).calculateSpeed .M1).calculateSpeed .M2 }
  | .speedPI .M2 =>
    v = { t with sys := (((tickCount t.sys).calculateSpeed .M1).calculateSpeed .M2).speedPI .M1 }
  | .clear => v = { t with sys :=
    ((((tickCount t.sys).calculateSpeed .M1).calculateSpeed .M2).speedPI .M1).speedPI .M2 }

/-- **Tick.**  The steps of the timer's handler make up the handler of `Sys`. -/
theorem tick_steps (s : Sys) :
    ((((tickCount s).calculateSpeed .M1).calculateSpeed .M2).speedPI .M1).speedPI .M2 =
      tmr5GlobalIRQHandler s := by
  unfold tickCount tmr5GlobalIRQHandler
  by_cases ht : s.t + 1 = 100
  · simp only [if_pos ht]
    rfl
  · simp only [if_neg ht]
    rfl

theorem tickMicro_mid {pc pc' : TickPc} {b b' : Board} {t : MainLoop} (h : TickMid pc t b.main)
    (hb : tickMicro pc b = (b', some pc')) : TickMid pc' t b'.main := by
  cases pc with
  | count =>
    obtain rfl : b.main = t := h
    cases hb
    split_ifs with ht
    · exact ⟨ht, rfl⟩
    · simp only [TickMid, Board.mapSys_main, tickCount, if_neg ht]
  | ledLoad =>
    obtain ⟨ht, hv⟩ := h
    rw [tickMicro, if_neg (by decide)] at hb
    cases hb
    exact ⟨ht, hv⟩
  | ledStore odt =>
    obtain ⟨ht, hv⟩ := h
    cases hb
    refine ⟨ht, ?_⟩
    simp only [Board.mapSys_main, hv]
  | reset =>
    obtain ⟨ht, hv⟩ := h
    cases hb
    simp only [TickMid, Board.mapSys_main, hv, tickCount, if_pos ht]
  | speed m =>
    cases m <;> cases hb <;> simp only [TickMid, Board.mapSys_main] at h ⊢ <;> rw [h]
  | speedPI m =>
    cases m <;> cases hb <;> simp only [TickMid, Board.mapSys_main] at h ⊢ <;> rw [h]
  | clear => cases hb

theorem tickMicro_done {pc : TickPc} {b b' : Board} {t : MainLoop} (h : TickMid pc t b.main)
    (hb : tickMicro pc b = (b', none)) :
    b'.main = { t with sys := tmr5GlobalIRQHandler t.sys } := by
  cases pc with
  | ledLoad =>
    rw [tickMicro, if_neg (by decide)] at hb
    cases hb
  | clear =>
    cases hb
    rw [← tick_steps]
    exact h
  | speed m => cases m <;> cases hb
  | speedPI m => cases m <;> cases hb
  | _ => cases hb

/-! ## Handlers are atomic -/

/-- The lines whose handlers work on the motors. -/
def IRQn.drives : IRQn → Bool
  | .dma1Adc _ | .tmr5Global => true
  | .dma1Spi _ | .dma1Channel7 | .usbfsLCan1Rx0 | .can1Se | .usart1 => false

def HandlerMid : (i : IRQn) → i.Local → MainLoop → MainLoop → Prop
  | .dma1Adc m, pc, t, v => ControlMid m pc t v
  | .tmr5Global, pc, t, v => TickMid pc t v
  | .dma1Spi _, _, t, v | .dma1Channel7, _, t, v | .usbfsLCan1Rx0, _, t, v | .can1Se, _, t, v
  | .usart1, _, t, v => v = t

/-- The line of an interrupt. -/
def Event.line : Event → Option IRQn
  | .adc1 _ _ => some (.dma1Adc .M1)
  | .adc3 _ _ => some (.dma1Adc .M2)
  | .tmr5 => some .tmr5Global
  | .apply | .parse _ => none

def MainLoopEvent.line : MainLoopEvent → Option IRQn
  | .main _ => none
  | .irq i => i.val.line

theorem board_serialises (strtof : List UInt8 → ℚ) :
    (board strtof).Serialises Board.main (mainLoopStep strtof) MainLoopEvent.line
      (fun i => i.drives = true) HandlerMid (fun _ => True) where
  level i j hi hj := by
    have h1 : ∀ i : IRQn, i.drives = true → i.preemptPriority = 1 := by
      intro i hi
      cases i <;> first | rfl | cases hi
    exact (h1 i hi).trans (h1 j hj).symm
  inv _ _ _ := trivial
  entry i t _ _ := by
    cases i <;> rfl
  micro i l b t b' l' hi _ hm hb := by
    cases i with
    | dma1Adc m => exact controlMicro_mid hm hb
    | tmr5Global => exact tickMicro_mid hm hb
    | _ => cases hi
  done i l b t b' hi _ hm hb := by
    cases i with
    | dma1Adc m =>
      rcases controlMicro_done strtof hm hb with h | ⟨ad, angle, h⟩
      · exact .inl h
      · refine .inr ⟨.irq ⟨.adc m ad angle, adc_isInterrupt m ad angle⟩, ?_, h⟩
        cases m <;> rfl
    | tmr5Global => exact .inr ⟨.irq ⟨.tmr5, rfl⟩, rfl, tickMicro_done hm hb⟩
    | _ => cases hi
  hidden i l b hi := by
    cases i with
    | dma1Adc m => exact absurd rfl hi
    | tmr5Global => exact absurd rfl hi
    | dma1Spi m => exact spiHandler_main m b
    | dma1Channel7 =>
      show (dma1Channel7Handler b).main = b.main
      unfold dma1Channel7Handler
      split <;> rfl
    | usbfsLCan1Rx0 =>
      show (usbfsLCan1Rx0Handler b).main = b.main
      unfold usbfsLCan1Rx0Handler
      split <;> rfl
    | can1Se => rfl
    | usart1 =>
      show (usart1Handler b).main = b.main
      unfold usart1Handler
      split <;> rfl
  thread b _ := by
    rcases mainThread_main strtof b with h | ⟨msg, h⟩
    · exact ⟨[], nofun, h⟩
    · exact ⟨[.main msg], by simp [MainLoopEvent.line], h⟩
  hardware e b := hardware_main e b

/-! ## After boot -/

/-- What the peripherals show during boot and at its end. -/
structure PowerOn where
  inputs : BootInputs
  /-- `rx_buf` and the lines of the encoders, and the words of the calls during boot. -/
  rxBuf : Motor → Word
  miso : Motor → List UInt8
  calls : Motor → List Word
  word : Motor → Word
  adBuffer : Motor → ADBuffer

/-- An encoder after the calls of the boot sequence. -/
def encoderReady (m : Motor) (p : PowerOn) : Encoder :=
  run encoderStep (encoderBoot m (p.rxBuf m) (p.miso m)) ((p.calls m).flatMap encoderCall)

/-- The end of the boot sequence: chip selects high, the LED off, no request. -/
def boardBoot (p : PowerOn) : Board where
  main := mainLoopBoot p.inputs
  parsed := false
  encoder m := encoderReady m p
  word := p.word
  adBuffer := p.adBuffer
  adcFdt _ := false
  odtA := 0x0010#16
  odtB := 0x1000#16
  tmr5Ovf := false
  txFdt := false
  usart1TxDmaStatus := 0
  idle := false
  rx1Flag := 0
  rxText := []
  canPending := false
  canError := false
  times := 0

/-- The core after boot and any requests, entries and steps. -/
def boardRun (strtof : List UInt8 → ℚ) (p : PowerOn) (cevs : List (CoreEvent IRQn HardwareEvent)) :
    Core IRQn IRQn.Local Board :=
  run (board strtof).step ⟨boardBoot p, [], []⟩ cevs

/-- **Atomic handlers.**  However the handlers are nested and wherever they preempt the main
loop, there is a run in which the control handlers and the tick are single steps, in the
order of their returns: between them, the motors and the main loop are as in that run, and
inside one, as after the first steps of it. -/
theorem handlers_are_atomic (strtof : List UInt8 → ℚ) (p : PowerOn)
    (cevs : List (CoreEvent IRQn HardwareEvent)) :
    let c := boardRun strtof p cevs
    ∃ evs : List MainLoopEvent,
      let t := run (mainLoopStep strtof) (mainLoopBoot p.inputs) evs
      (evs.filterMap MainLoopEvent.line).Sublist (c.returned.filter fun i => i.drives) ∧
      ((∀ f ∈ c.active, f.1.drives = false) → c.shared.main = t) ∧
      ∀ f ∈ c.active, f.1.drives = true → HandlerMid f.1 f.2 t c.shared.main := by
  intro c
  obtain ⟨evs, hm⟩ := (board_serialises strtof).run (boardBoot p) trivial cevs
  refine ⟨evs, ?_, fun hidle => hm.idle ?_, hm.busy⟩
  · have hlog := hm.log
    simp only [Bool.decide_eq_true] at hlog
    exact hlog
  · intro f hf
    simp [hidle f hf]

end At32Foc
