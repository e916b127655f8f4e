import At32Foc.HandlerReturn

/-!
# The ports

Port A holds a chip select and the LED, which three handlers change: each of the two chip
selects by one write of `scr` or `clr`, the LED by a load and a store of the whole register.

* `Selected`: chip select is low exactly while a transaction is open.
* `pins_follow`: so it is on the pins, and toggling the LED never disturbs a chip select, nor
  the other way round.
-/

namespace At32Foc

open ControlLib InterruptSystem

/-- A transaction is open from the fall of chip select to the interrupt of its last byte. -/
def Encoder.Open (e : Encoder) : Prop :=
  e.pc = .started ∨ e.pc = .waiting ∧ e.dataReady = false

/-- Chip select is low while a transaction is open, and only then. -/
def Selected (e : Encoder) : Prop := e.CS = false ↔ e.Open

theorem encoderStep_selected {p1 p2 : UInt8} {s : Encoder} (hb : Between p1 p2 s)
    (h : Selected s) (e : EncoderEvent) : Selected (encoderStep s e) := by
  cases e with
  | start w =>
    rw [encoderStep]
    split_ifs
    · exact ⟨fun _ => .inl rfl, fun _ => rfl⟩
    · exact h
  | write =>
    rw [encoderStep]
    split_ifs with hpc
    · obtain ⟨-, hready, -⟩ := hb.transaction.of_started hpc
      exact ⟨fun _ => .inr ⟨rfl, hready⟩, fun _ => h.mpr (.inl hpc)⟩
    · exact h
  | txDma =>
    have hidle : ¬s.DMA_TX.Active := fun hact => absurd hb.tx hact.2.ne'
    rw [encoderStep, if_neg hidle]
    exact h
  | irq =>
    rw [encoderStep]
    split_ifs with hfdt
    · obtain ⟨hpc, -⟩ := hb.transaction.of_fdt hfdt
      refine ⟨fun h' => absurd h' (by simp), ?_⟩
      rintro (h' | ⟨-, h'⟩)
      · dsimp only at h'
        rw [hpc] at h'
        cases h'
      · cases h'
    · exact h
  | decode =>
    rw [encoderStep]
    split_ifs with hdone
    · refine ⟨fun hcs => ?_, by rintro (h' | ⟨h', -⟩) <;> cases h'⟩
      rcases h.mp hcs with h' | ⟨-, h'⟩
      · rw [hdone.1] at h'
        cases h'
      · rw [hdone.2] at h'
        cases h'
    · exact h

/-- No handler moves an encoder but by a step of its transaction. -/
def Moves (e e' : Encoder) : Prop := e' = e ∨ ∃ ev, e' = encoderStep e ev

theorem setEncoder_moves (b : Board) (g m : Motor) (ev : EncoderEvent) :
    Moves (b.encoder m) ((b.setEncoder g (encoderStep (b.encoder g) ev)).encoder m) := by
  by_cases hm : m = g
  · subst hm
    exact .inr ⟨ev, Function.update_self _ _ _⟩
  · exact .inl (Function.update_of_ne hm _ _)

theorem micro_moves (i : IRQn) (l : i.Local) (b : Board) (m : Motor) :
    Moves (b.encoder m) ((micro i l b).1.encoder m) := by
  cases i with
  | dma1Adc g =>
    show Moves (b.encoder m) ((controlMicro g l b).1.encoder m)
    cases l with
    | flag =>
      rw [controlMicro]
      split_ifs <;> exact .inl rfl
    | start =>
      simp only [controlMicro, Board.setCS_encoder]
      exact setEncoder_moves b g m _
    | write => exact setEncoder_moves b g m _
    | wait =>
      rw [controlMicro]
      split_ifs
      · exact setEncoder_moves b g m _
      · exact .inl rfl
    | angle angle => exact .inl rfl
    | stage k => exact .inl rfl
  | tmr5Global =>
    show Moves (b.encoder m) ((At32Foc.tickMicro l b).1.encoder m)
    cases l with
    | ledLoad =>
      rw [At32Foc.tickMicro]
      split_ifs <;> exact .inl rfl
    | speed g => cases g <;> exact .inl rfl
    | speedPI g => cases g <;> exact .inl rfl
    | _ => exact .inl rfl
  | dma1Spi g =>
    simp only [micro, spiHandler]
    split_ifs
    · rw [Board.setCS_encoder]
      exact setEncoder_moves b g m _
    · exact .inl rfl
  | dma1Channel7 =>
    simp only [micro, dma1Channel7Handler]
    split_ifs <;> exact .inl rfl
  | usbfsLCan1Rx0 =>
    simp only [micro, usbfsLCan1Rx0Handler]
    split_ifs <;> exact .inl rfl
  | can1Se => exact .inl rfl
  | usart1 =>
    simp only [micro, usart1Handler]
    split_ifs <;> exact .inl rfl

theorem mainThread_encoder (strtof : List UInt8 → ℚ) (b : Board) :
    (mainThread strtof b).encoder = b.encoder := by
  unfold mainThread
  split
  · rfl
  · split
    · split <;> rfl
    · split <;> rfl
    · rfl

theorem step_moves (strtof : List UInt8 → ℚ) (c : BoardCore) (e : CoreEvent IRQn HardwareEvent)
    (m : Motor) :
    Moves (c.shared.encoder m) (((board strtof).step c e).shared.encoder m) := by
  refine (board strtof).step_cases
    (P := fun c' : BoardCore => Moves (c.shared.encoder m) (c'.shared.encoder m)) e (.inl rfl)
    (fun e => ?_) (fun _ _ _ => .inl rfl) (fun _ => ?_) (fun i l rest b l' _ hb => ?_)
    (fun i l rest b _ hb => ?_)
  · cases e with
    | txDma g => exact setEncoder_moves c.shared g m _
    | _ => exact .inl rfl
  · exact .inl (congrFun (mainThread_encoder strtof c.shared) m)
  · have hm := micro_moves i l c.shared m
    rwa [show micro i l c.shared = (b, some l') from hb] at hm
  · have hm := micro_moves i l c.shared m
    rwa [show micro i l c.shared = (b, none) from hb] at hm

/-- Seen through one encoder, a run of the core is a run of its transactions. -/
theorem encoder_run (strtof : List UInt8 → ℚ) (p : PowerOn)
    (cevs : List (CoreEvent IRQn HardwareEvent)) (m : Motor) :
    ∃ evs, (boardRun strtof p cevs).shared.encoder m = run encoderStep (encoderReady m p) evs := by
  refine run_invariant (I := fun c : BoardCore => ∃ evs, c.shared.encoder m =
    run encoderStep (encoderReady m p) evs) (fun c e h => ?_) cevs ⟨boardBoot p, [], []⟩ ⟨[], rfl⟩
  obtain ⟨evs, hrun⟩ := h
  rcases step_moves strtof c e m with hs | ⟨ev, hs⟩
  · exact ⟨evs, hs.trans hrun⟩
  · refine ⟨evs ++ [ev], ?_⟩
    rw [hs, run_append, hrun]
    rfl

theorem run_selected (strtof : List UInt8 → ℚ) (p : PowerOn)
    (cevs : List (CoreEvent IRQn HardwareEvent)) (m : Motor) :
    Selected ((boardRun strtof p cevs).shared.encoder m) := by
  obtain ⟨evs, hrun⟩ := encoder_run strtof p cevs m
  obtain ⟨⟨p1, p2, hb⟩, hpc, hcs⟩ := encoderReady_idle m p
  have h0 : Selected (encoderReady m p) := by
    refine ⟨fun h => ?_, ?_⟩
    · rw [hcs] at h
      cases h
    · rintro (h | ⟨h, -⟩) <;> rw [hpc] at h <;> cases h
  rw [hrun]
  exact (run_invariant (I := fun e => Between p1 p2 e ∧ Selected e)
    (fun e ev h => ⟨encoderStep_between e ev h.1, encoderStep_selected h.1 h.2 ev⟩) evs _
    ⟨hb, h0⟩).2

theorem pinsA_bits (cs led : Bool) : (pinsA cs led).getLsbD 4 = cs ∧
    (pinsA cs led).getLsbD 8 = led ∧ ∀ i, i ≠ 4 → i ≠ 8 → (pinsA cs led).getLsbD i = false := by
  refine ⟨by cases cs <;> cases led <;> rfl, by cases cs <;> cases led <;> rfl, fun i h4 h8 => ?_⟩
  by_cases hi : i < 16
  · interval_cases i <;> first | exact absurd rfl h4 | exact absurd rfl h8 |
      (cases cs <;> cases led <;> rfl)
  · exact BitVec.getLsbD_of_ge _ _ (by omega)

theorem pinsB_bits (cs : Bool) :
    (pinsB cs).getLsbD 12 = cs ∧ ∀ i, i ≠ 12 → (pinsB cs).getLsbD i = false := by
  refine ⟨by cases cs <;> rfl, fun i h12 => ?_⟩
  by_cases hi : i < 16
  · interval_cases i <;> first | exact absurd rfl h12 | (cases cs <;> rfl)
  · exact BitVec.getLsbD_of_ge _ _ (by omega)

/-- **Ports.**  In every state of the core the chip select of each encoder is low exactly
while its transaction is open, the LED pin shows the LED, and no other pin of the two ports
has moved: the LED's load and store of port A never lose an edge of chip select. -/
theorem pins_follow (strtof : List UInt8 → ℚ) (p : PowerOn)
    (cevs : List (CoreEvent IRQn HardwareEvent)) :
    let b := (boardRun strtof p cevs).shared
    (b.odtA.getLsbD 4 = false ↔ (b.encoder .M1).Open) ∧
      b.odtA.getLsbD 8 = b.main.sys.LED0 ∧
      (∀ i, i ≠ 4 → i ≠ 8 → b.odtA.getLsbD i = false) ∧
      (b.odtB.getLsbD 12 = false ↔ (b.encoder .M2).Open) ∧
      ∀ i, i ≠ 12 → b.odtB.getLsbD i = false := by
  intro b
  have h : Ports b := (run_coherent strtof p cevs).2.ports
  obtain ⟨h4, h8, hA⟩ := pinsA_bits (b.encoder .M1).CS b.main.sys.LED0
  obtain ⟨h12, hB⟩ := pinsB_bits (b.encoder .M2).CS
  rw [h.A, h.B, h4, h8, h12]
  exact ⟨run_selected strtof p cevs .M1, rfl, hA, run_selected strtof p cevs .M2, hB⟩

end At32Foc
