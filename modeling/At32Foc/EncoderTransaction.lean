import At32Foc.Lib.Dma
import At32Foc.Foc

/-!
# Encoder transactions

`MT6701_StartRead` lowers chip select, enables the two DMA channels of the SPI and writes
one byte; the RX channel's interrupt raises chip select and sets `data_ready`;
`MT6701_GetAngle` waits for that and decodes the three bytes of `rx_buf`.  The RX channel is
configured for one byte in loop mode, the TX channel for three bytes without, and these
three are sent during boot.  A transaction thus exchanges the one byte that is written,
and only `rx_buf[0]` is ever received.

* `Between`: where a transaction stands after boot; `encoderStep_between`: every step
  keeps it.
* `call_returns`: every call ends with an angle.
* `rise_cases`: `data_ready` and chip select rise together, at the interrupt.
* `angle_eq_iff`: when the left-over bytes give the angle of the word.
* `encoder_angle_iff`: so every call of every run.
-/

namespace At32Foc

open ControlLib

/-! ## Algorithm -/

def DMA1_CHANNEL3_BUFFER_SIZE : ℕ := 1
def DMA1_CHANNEL4_BUFFER_SIZE : ℕ := 3
def DMA1_CHANNEL5_BUFFER_SIZE : ℕ := 1
def DMA1_CHANNEL6_BUFFER_SIZE : ℕ := 3

/-- The channels of the SPI of an encoder, as configured and enabled by `main`. -/
def rxDma : Motor → DmaChannel
  | .M1 => .armed DMA1_CHANNEL3_BUFFER_SIZE true
  | .M2 => .armed DMA1_CHANNEL5_BUFFER_SIZE true

def txDma : Motor → DmaChannel
  | .M1 => .armed DMA1_CHANNEL4_BUFFER_SIZE false
  | .M2 => .armed DMA1_CHANNEL6_BUFFER_SIZE false

/-- The 24 bits an MT6701 shifts out, as bytes. -/
structure Word where
  b0 : UInt8
  b1 : UInt8
  b2 : UInt8
  deriving Repr, DecidableEq

def Word.value (w : Word) : ℕ := (w.b0.toNat <<< 16) ||| (w.b1.toNat <<< 8) ||| w.b2.toNat

/-- Where `MT6701_GetAngle` is: not called, before the write of the dummy byte, or waiting for
`data_ready`. -/
inductive EncoderPc where
  | idle
  | started
  | waiting
  deriving Repr, DecidableEq

structure Encoder where
  DMA_TX : DmaChannel
  DMA_RX : DmaChannel
  rxBuf : List UInt8
  dataReady : Bool
  /-- Chip select is high. -/
  CS : Bool
  /-- What the encoder has yet to shift out; zeros follow. -/
  shift : List UInt8
  pc : EncoderPc
  /-- The word of the transaction, and the words and angles of the calls so far. -/
  word : Word
  results : List (Word × ℚ)

/-- The SPI exchanges a byte, which the RX channel stores. -/
def exchange (s : Encoder) : Encoder :=
  let r := DmaChannel.store (s.DMA_RX, s.rxBuf) (s.shift.headD 0)
  { s with DMA_RX := r.1, rxBuf := r.2, shift := s.shift.tail }

inductive EncoderEvent where
  /-- `MT6701_StartRead` up to the wait for the SPI; the encoder will shift out `w`. -/
  | start (w : Word)
  /-- The dummy byte is written. -/
  | write
  /-- The TX channel moves a byte to the SPI. -/
  | txDma
  /-- The full-transfer interrupt of the RX channel. -/
  | irq
  /-- `data_ready` is seen, and the frame is decoded. -/
  | decode
  deriving DecidableEq

def encoderStep (s : Encoder) : EncoderEvent → Encoder
  | .start w =>
    if s.pc = .idle then
      { s with
        CS := false, shift := [w.b0, w.b1, w.b2], word := w, dataReady := false, pc := .started
        DMA_TX := { s.DMA_TX with enabled := true }
        DMA_RX := { s.DMA_RX with enabled := true } }
    else s
  | .write => if s.pc = .started then { exchange s with pc := .waiting } else s
  | .txDma => if s.DMA_TX.Active then { exchange s with DMA_TX := s.DMA_TX.moved } else s
  | .irq =>
    if s.DMA_RX.fdt then
      { s with
        DMA_TX := { s.DMA_TX with enabled := false }
        DMA_RX := { s.DMA_RX with enabled := false, fdt := false }
        CS := true, dataReady := true }
    else s
  | .decode =>
    if s.pc = .waiting ∧ s.dataReady = true then
      { s with
        pc := .idle, dataReady := false
        results := s.results ++ [(s.word,
          mt6701GetAngle (s.rxBuf.getD 0 0) (s.rxBuf.getD 1 0) (s.rxBuf.getD 2 0))] }
    else s

/-- With the channels enabled and `rx_buf` as it is; `miso` is what is on the line. -/
def encoderReset (m : Motor) (prior : Word) (miso : List UInt8) : Encoder :=
  { DMA_TX := txDma m, DMA_RX := rxDma m, rxBuf := [prior.b0, prior.b1, prior.b2],
    dataReady := false, CS := true, shift := miso, pc := .idle, word := prior, results := [] }

/-- The SPI is enabled, the TX channel empties, and then the interrupts are enabled. -/
def encoderBoot (m : Motor) (prior : Word) (miso : List UInt8) : Encoder :=
  run encoderStep (encoderReset m prior miso) [.txDma, .txDma, .txDma, .irq]

/-! ## The invariant -/

/-- The rest of the transaction, given the left-over bytes `p1` and `p2`. -/
inductive Transaction (p1 p2 : UInt8) (s : Encoder) : Prop where
  | idle (hpc : s.pc = .idle) (hfdt : s.DMA_RX.fdt = false)
  | started (hpc : s.pc = .started) (hfdt : s.DMA_RX.fdt = false)
      (hen : s.DMA_RX.enabled = true) (hready : s.dataReady = false) (hcs : s.CS = false)
      (hshift : s.shift = [s.word.b0, s.word.b1, s.word.b2])
  | received (hpc : s.pc = .waiting) (hfdt : s.DMA_RX.fdt = true) (hready : s.dataReady = false)
      (hcs : s.CS = false) (hbuf : s.rxBuf = [s.word.b0, p1, p2])
  | ready (hpc : s.pc = .waiting) (hfdt : s.DMA_RX.fdt = false) (hready : s.dataReady = true)
      (hbuf : s.rxBuf = [s.word.b0, p1, p2])

/-- After boot the TX channel is exhausted, the RX channel moves one byte at a time to the
head of `rx_buf`, and the other two bytes stay. -/
structure Between (p1 p2 : UInt8) (s : Encoder) : Prop where
  tx : s.DMA_TX.count = 0
  rx : s.DMA_RX.size = 1 ∧ s.DMA_RX.count = 1 ∧ s.DMA_RX.loop = true
  rxBuf : ∃ b0, s.rxBuf = [b0, p1, p2]
  results : ∀ r ∈ s.results, r.2 = mt6701GetAngle r.1.b0 p1 p2
  transaction : Transaction p1 p2 s

theorem encoderBoot_between (m : Motor) (prior : Word) (miso : List UInt8) :
    Between prior.b1 prior.b2 (encoderBoot m prior miso) := by
  cases m
  all_goals
    refine ⟨rfl, ⟨rfl, rfl, rfl⟩, ⟨_, rfl⟩, nofun, .idle rfl rfl⟩

/-- A store in loop mode with a count of one: to the head, and the channel starts again. -/
theorem exchange_of_between {p1 p2 : UInt8} {s : Encoder} (h : Between p1 p2 s)
    (hen : s.DMA_RX.enabled = true) :
    exchange s = { s with
      DMA_RX := { s.DMA_RX with fdt := true }
      rxBuf := [s.shift.headD 0, p1, p2]
      shift := s.shift.tail } := by
  obtain ⟨-, ⟨hsize, hcount, hloop⟩, ⟨b0, hbuf⟩, -, -⟩ := h
  have hact : s.DMA_RX.Active := ⟨hen, by omega⟩
  have hmoved : s.DMA_RX.moved = { s.DMA_RX with fdt := true } := by
    rw [DmaChannel.moved, if_pos hcount, if_pos hloop]
    dsimp only
    rw [hsize, hcount]
  have hindex : s.DMA_RX.index = 0 := by rw [DmaChannel.index, hsize, hcount]
  rw [exchange, DmaChannel.store, if_pos hact, hmoved, hindex, hbuf, List.set_cons_zero]

section Steps

variable {p1 p2 : UInt8} {s : Encoder}

/-- What is known at each point of a call. -/
theorem Transaction.of_idle (h : Transaction p1 p2 s) (hpc : s.pc = .idle) :
    s.DMA_RX.fdt = false := by
  cases h with
  | idle _ hfdt => exact hfdt
  | started h' => rw [hpc] at h'; cases h'
  | received h' => rw [hpc] at h'; cases h'
  | ready h' => rw [hpc] at h'; cases h'

theorem Transaction.of_started (h : Transaction p1 p2 s) (hpc : s.pc = .started) :
    s.DMA_RX.enabled = true ∧ s.dataReady = false ∧ s.CS = false ∧
      s.shift = [s.word.b0, s.word.b1, s.word.b2] := by
  cases h with
  | started _ _ hen hready hcs hshift => exact ⟨hen, hready, hcs, hshift⟩
  | idle h' => rw [hpc] at h'; cases h'
  | received h' => rw [hpc] at h'; cases h'
  | ready h' => rw [hpc] at h'; cases h'

/-- The interrupt is pending: the byte has been received. -/
theorem Transaction.of_fdt (h : Transaction p1 p2 s) (hfdt : s.DMA_RX.fdt = true) :
    s.pc = .waiting ∧ s.rxBuf = [s.word.b0, p1, p2] := by
  cases h with
  | received hpc _ _ _ hbuf => exact ⟨hpc, hbuf⟩
  | idle _ h' => rw [hfdt] at h'; cases h'
  | started _ h' => rw [hfdt] at h'; cases h'
  | ready _ h' => rw [hfdt] at h'; cases h'

theorem Transaction.of_ready (h : Transaction p1 p2 s) (hpc : s.pc = .waiting)
    (hready : s.dataReady = true) :
    s.DMA_RX.fdt = false ∧ s.rxBuf = [s.word.b0, p1, p2] := by
  cases h with
  | ready _ hfdt _ hbuf => exact ⟨hfdt, hbuf⟩
  | idle h' => rw [hpc] at h'; cases h'
  | started h' => rw [hpc] at h'; cases h'
  | received _ _ h' => rw [hready] at h'; cases h'

theorem Between.start (h : Between p1 p2 s) (w : Word) :
    Between p1 p2 (encoderStep s (.start w)) := by
  rw [encoderStep]
  split_ifs with hpc
  · have hfdt := h.transaction.of_idle hpc
    exact ⟨h.tx, h.rx, h.rxBuf, h.results, .started rfl hfdt rfl rfl rfl rfl⟩
  · exact h

theorem Between.write (h : Between p1 p2 s) : Between p1 p2 (encoderStep s .write) := by
  rw [encoderStep]
  split_ifs with hpc
  · obtain ⟨hen, hready, hcs, hshift⟩ := h.transaction.of_started hpc
    rw [exchange_of_between h hen, hshift]
    exact ⟨h.tx, h.rx, ⟨_, rfl⟩, h.results, .received rfl rfl hready hcs rfl⟩
  · exact h

/-- The TX channel has nothing left to move: it is never reloaded. -/
theorem Between.txDma (h : Between p1 p2 s) : Between p1 p2 (encoderStep s .txDma) := by
  have hidle : ¬s.DMA_TX.Active := fun hact => absurd h.tx hact.2.ne'
  rw [encoderStep, if_neg hidle]
  exact h

theorem Between.irq (h : Between p1 p2 s) : Between p1 p2 (encoderStep s .irq) := by
  rw [encoderStep]
  split_ifs with hfdt
  · obtain ⟨hpc, hbuf⟩ := h.transaction.of_fdt hfdt
    exact ⟨h.tx, h.rx, h.rxBuf, h.results, .ready hpc rfl rfl hbuf⟩
  · exact h

theorem Between.decode (h : Between p1 p2 s) : Between p1 p2 (encoderStep s .decode) := by
  rw [encoderStep]
  split_ifs with hdone
  · obtain ⟨hfdt, hbuf⟩ := h.transaction.of_ready hdone.1 hdone.2
    refine ⟨h.tx, h.rx, h.rxBuf, ?_, .idle rfl hfdt⟩
    intro r hr
    rcases List.mem_append.mp hr with hr | hr
    · exact h.results r hr
    · rw [List.mem_singleton.mp hr, hbuf]
      rfl
  · exact h

end Steps

theorem encoderStep_between {p1 p2 : UInt8} (s : Encoder) (e : EncoderEvent)
    (h : Between p1 p2 s) : Between p1 p2 (encoderStep s e) := by
  cases e with
  | start w => exact h.start w
  | write => exact h.write
  | txDma => exact h.txDma
  | irq => exact h.irq
  | decode => exact h.decode

theorem run_between (m : Motor) (prior : Word) (miso : List UInt8) (evs : List EncoderEvent) :
    Between prior.b1 prior.b2 (run encoderStep (encoderBoot m prior miso) evs) :=
  run_invariant encoderStep_between evs _ (encoderBoot_between m prior miso)

/-! ## Calls -/

/-- A call of `MT6701_GetAngle` that nothing disturbs. -/
def encoderCall (w : Word) : List EncoderEvent := [.start w, .write, .irq, .decode]

theorem call_returns {p1 p2 : UInt8} {s : Encoder} (h : Between p1 p2 s) (hpc : s.pc = .idle)
    (w : Word) :
    (run encoderStep s (encoderCall w)).results =
      s.results ++ [(w, mt6701GetAngle w.b0 p1 p2)] := by
  have hstart : encoderStep s (.start w) = { s with
      CS := false, shift := [w.b0, w.b1, w.b2], word := w, dataReady := false, pc := .started
      DMA_TX := { s.DMA_TX with enabled := true }
      DMA_RX := { s.DMA_RX with enabled := true } } := if_pos hpc
  have hwrite := exchange_of_between (h.start w) (by rw [hstart])
  rw [hstart] at hwrite
  rw [encoderCall, run_cons, hstart, run_cons, encoderStep, if_pos rfl, hwrite]
  rfl

/-! ## The end of a transaction -/

/-- `data_ready` or chip select goes up in a step. -/
def Rises (s : Encoder) (e : EncoderEvent) : Prop :=
  s.dataReady = false ∧ (encoderStep s e).dataReady = true ∨
    s.CS = false ∧ (encoderStep s e).CS = true

/-- Only the interrupt raises them, and it raises both. -/
theorem rise_cases {s : Encoder} {e : EncoderEvent} (h : Rises s e) :
    s.DMA_RX.fdt = true ∧ encoderStep s e = { s with
      DMA_TX := { s.DMA_TX with enabled := false }
      DMA_RX := { s.DMA_RX with enabled := false, fdt := false }
      CS := true, dataReady := true } := by
  cases e with
  | irq =>
    by_cases hfdt : s.DMA_RX.fdt = true
    · exact ⟨hfdt, if_pos hfdt⟩
    · rw [Rises, encoderStep, if_neg hfdt] at h
      grind
  | start w => grind [Rises, encoderStep]
  | write => grind [Rises, encoderStep, exchange]
  | txDma => grind [Rises, encoderStep, exchange]
  | decode => grind [Rises, encoderStep]

/-- What the buffer holds then: of the word, the first byte. -/
theorem Between.rise {p1 p2 : UInt8} {s : Encoder} (h : Between p1 p2 s) {e : EncoderEvent}
    (hr : Rises s e) :
    let t := encoderStep s e
    t.dataReady = true ∧ t.CS = true ∧ t.word = s.word ∧ t.rxBuf = [s.word.b0, p1, p2] := by
  obtain ⟨hfdt, hstep⟩ := rise_cases hr
  rw [hstep]
  exact ⟨rfl, rfl, rfl, (h.transaction.of_fdt hfdt).2⟩

/-! ## The angle -/

/-- The angle of the word, when the left-over byte agrees with it in the six bits used. -/
theorem angle_eq_iff (w : Word) (p1 p2 : UInt8) :
    mt6701GetAngle w.b0 p1 p2 = ((w.value >>> 10 : ℕ) : ℚ) * _2PI / 16384 ↔
      w.b1.toNat >>> 2 = p1.toNat >>> 2 := by
  have hpi : _2PI ≠ 0 := by
    unfold _2PI
    norm_num
  rw [mt6701GetAngle_eq, Word.value, temp_eq, div_left_inj' (by norm_num), mul_left_inj' hpi,
    Nat.cast_inj, Nat.shiftRight_eq_div_pow, Nat.shiftRight_eq_div_pow]
  omega

/-- **Encoder transactions.**  Every call after boot returns, and returns the angle of the
word shifted out to it exactly when bits 15 to 10 of the word are those that `rx_buf[1]` held
before boot: of every word only the first byte is received.  So when `data_ready` and chip
select rise, together, the word is in `rx_buf` exactly when its other two bytes are those that
were there before boot. -/
theorem encoder_angle_iff (m : Motor) (prior : Word) (miso : List UInt8)
    (evs : List EncoderEvent) :
    let s := run encoderStep (encoderBoot m prior miso) evs
    (∀ r ∈ s.results, r.2 = ((r.1.value >>> 10 : ℕ) : ℚ) * _2PI / 16384 ↔
      r.1.b1.toNat >>> 2 = prior.b1.toNat >>> 2) ∧
    (s.pc = .idle → ∀ w, ∃ angle,
      (run encoderStep s (encoderCall w)).results = s.results ++ [(w, angle)] ∧
      (angle = ((w.value >>> 10 : ℕ) : ℚ) * _2PI / 16384 ↔
        w.b1.toNat >>> 2 = prior.b1.toNat >>> 2)) ∧
    (∀ e, Rises s e → (encoderStep s e).dataReady = true ∧ (encoderStep s e).CS = true ∧
      ((encoderStep s e).rxBuf = [s.word.b0, s.word.b1, s.word.b2] ↔
        s.word.b1 = prior.b1 ∧ s.word.b2 = prior.b2)) := by
  intro s
  have h : Between prior.b1 prior.b2 s := run_between m prior miso evs
  refine ⟨fun r hr => ?_, fun hpc w => ?_, fun e hr => ?_⟩
  · rw [h.results r hr]
    exact angle_eq_iff r.1 prior.b1 prior.b2
  · exact ⟨_, call_returns h hpc w, angle_eq_iff w prior.b1 prior.b2⟩
  · obtain ⟨hready, hcs, -, hbuf⟩ := h.rise hr
    refine ⟨hready, hcs, ?_⟩
    rw [hbuf]
    simp [eq_comm]

/-- With `rx_buf` zeroed, as the firmware starts: a word of 255 in its second byte, so an angle
of code 63, reads as the angle 0. -/
theorem encoder_drops_low_bits :
    (run encoderStep (encoderBoot .M1 ⟨0, 0, 0⟩ []) (encoderCall ⟨0, 255, 0⟩)).results =
        [(⟨0, 255, 0⟩, 0)] ∧
      ((Word.value ⟨0, 255, 0⟩ >>> 10 : ℕ) : ℚ) * _2PI / 16384 ≠ 0 := by
  decide +kernel

end At32Foc
