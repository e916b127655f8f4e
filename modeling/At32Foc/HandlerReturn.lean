import At32Foc.Interrupts

/-!
# Handlers and encoders

In every state of the core (`boardRun`) the active handlers, the encoder transactions and the
ports agree, and so every handler returns.

* `Coherent`: how they agree: a transaction belongs to an active control handler, and what
  the LED's store is about to write back is what the port still shows.
* `run_coherent`: it holds in every state, however the handlers are nested.
* `handlers_can_return`: the core always can return from all handlers by itself: a control
  handler that waits for its encoder can be interrupted by what it waits for.
-/

namespace At32Foc

open ControlLib InterruptSystem

/-! ## Encoders, ports and handlers -/

/-- The output registers that show two chip selects and an LED, and nothing else. -/
def pinsA (CS LED0 : Bool) : BitVec 16 :=
  (if CS then 0x0010#16 else 0#16) ||| (if LED0 then 0x0100#16 else 0#16)

def pinsB (CS : Bool) : BitVec 16 := if CS then 0x1000#16 else 0#16

/-- Where the call of `MT6701_GetAngle` is when a control handler is at `pc`. -/
def ControlPc.encoderPc : ControlPc → EncoderPc
  | .write => .started
  | .wait => .waiting
  | .flag | .start | .angle _ | .stage _ => .idle

abbrev BoardCore : Type := Core IRQn IRQn.Local Board

/-- The output registers show the chip selects as the transactions set them, and the LED. -/
structure Ports (b : Board) : Prop where
  A : b.odtA = pinsA (b.encoder .M1).CS b.main.sys.LED0
  B : b.odtB = pinsB (b.encoder .M2).CS

structure Coherent (c : BoardCore) : Prop where
  encoder : ∀ m, ∃ p1 p2, Between p1 p2 (c.shared.encoder m)
  /-- A transaction belongs to an active control handler. -/
  calling : ∀ m pc, ⟨.dma1Adc m, pc⟩ ∈ c.active → (c.shared.encoder m).pc = pc.encoderPc
  notCalling : ∀ m, (∀ pc, ⟨.dma1Adc m, pc⟩ ∉ c.active) → (c.shared.encoder m).pc = .idle
  /-- What the LED's store is about to write back is what the port shows. -/
  loaded : ∀ odt, ⟨.tmr5Global, .ledStore odt⟩ ∈ c.active → odt = c.shared.odtA
  ports : Ports c.shared

theorem Ports.setEncoder {b : Board} (h : Ports b) {m : Motor} {e : Encoder}
    (he : e.CS = (b.encoder m).CS) : Ports (b.setEncoder m e) := by
  cases m
  · exact ⟨h.A.trans (by simp [Board.setEncoder, he]), h.B⟩
  · exact ⟨h.A, h.B.trans (by simp [Board.setEncoder, he])⟩

/-- Setting or clearing one bit. -/
theorem Ports.setCS {b : Board} (h : Ports b) {m : Motor} {e : Encoder} {high : Bool}
    (he : e.CS = high) : Ports ((b.setEncoder m e).setCS m high) := by
  have hA : ∀ cs led, pinsA cs led ||| 0x0010#16 = pinsA true led ∧
      pinsA cs led &&& ~~~0x0010#16 = pinsA false led := by
    decide
  have hB : ∀ cs, pinsB cs ||| 0x1000#16 = pinsB true ∧
      pinsB cs &&& ~~~0x1000#16 = pinsB false := by
    decide
  obtain ⟨h1, h2⟩ := h
  cases m <;> cases high <;> constructor <;>
    simp only [Board.setCS, Board.setEncoder, Function.update_self, ne_eq, reduceCtorEq,
      not_false_eq_true, Function.update_of_ne, he, h1, h2, hA, hB]

section Coherent

variable {strtof : List UInt8 → ℚ} {c : BoardCore}

/-- Nothing of level 1 lies below a handler of level 1. -/
theorem nested_below (hn : (board strtof).Nested c.active) {i : IRQn} {l : i.Local}
    {rest : List (Σ i : IRQn, i.Local)} (ha : c.active = ⟨i, l⟩ :: rest)
    (hi : i.preemptPriority = 1) (f : Σ i : IRQn, i.Local) (hf : f ∈ rest) :
    f.1.preemptPriority ≠ 1 := by
  rw [ha] at hn
  have hlt : i.preemptPriority < f.1.preemptPriority := List.rel_of_pairwise_cons hn hf
  omega

/-- The interrupt of an encoder is pending only while its control handler waits. -/
theorem Coherent.pending (h : Coherent c) {m : Motor}
    (hfdt : (c.shared.encoder m).DMA_RX.fdt = true) : ⟨.dma1Adc m, ControlPc.wait⟩ ∈ c.active := by
  obtain ⟨p1, p2, hb⟩ := h.encoder m
  have hpc := (hb.transaction.of_fdt hfdt).1
  by_cases hex : ∃ pc : ControlPc, (⟨.dma1Adc m, pc⟩ : Σ i : IRQn, i.Local) ∈ c.active
  · obtain ⟨pc, hmem⟩ := hex
    have hcall := h.calling m pc hmem
    rw [hpc] at hcall
    cases pc with
    | wait => exact hmem
    | _ => cases hcall
  · push Not at hex
    rw [h.notCalling m hex] at hpc
    cases hpc

/-- A state that differs in neither encoders nor ports nor the LED. -/
theorem Coherent.of_same (h : Coherent c) {c' : BoardCore}
    (hact : c'.active = c.active) (henc : c'.shared.encoder = c.shared.encoder)
    (hA : c'.shared.odtA = c.shared.odtA) (hB : c'.shared.odtB = c.shared.odtB)
    (hled : c'.shared.main.sys.LED0 = c.shared.main.sys.LED0) : Coherent c' := by
  refine ⟨henc ▸ h.encoder, ?_, ?_, ?_, ⟨?_, ?_⟩⟩
  · rw [hact, henc]
    exact h.calling
  · rw [hact, henc]
    exact h.notCalling
  · rw [hact, hA]
    exact h.loaded
  · rw [hA, henc, hled]
    exact h.ports.A
  · rw [hB, henc]
    exact h.ports.B

/-- The return of a handler that takes no part in a transaction. -/
theorem Coherent.pop (h : Coherent c) {i : IRQn} {l : i.Local}
    {rest : List (Σ i : IRQn, i.Local)} (ha : c.active = ⟨i, l⟩ :: rest)
    (hi : ∀ m, i ≠ .dma1Adc m) (ret : List IRQn) : Coherent ⟨c.shared, rest, ret⟩ := by
  have hsub : ∀ x ∈ rest, x ∈ c.active := fun x hmem => by
    rw [ha]
    exact List.mem_cons_of_mem _ hmem
  refine ⟨h.encoder, fun g pc hmem => h.calling g pc (hsub _ hmem),
    fun g hno => h.notCalling g fun pc hmem => ?_, fun odt hmem => h.loaded odt (hsub _ hmem),
    h.ports⟩
  rw [ha] at hmem
  rcases List.mem_cons.mp hmem with heq | hmem
  · exact hi g (congrArg Sigma.fst heq).symm
  · exact hno pc hmem

theorem Coherent.enter (h : Coherent c) (hn : (board strtof).Nested c.active) {i : IRQn}
    (hi : (board strtof).Preempts i c.active) :
    Coherent { c with active := ⟨i, entry i⟩ :: c.active } := by
  refine ⟨h.encoder, fun m pc hmem => ?_, fun m hno => h.notCalling m fun pc hmem =>
    hno pc (List.mem_cons_of_mem _ hmem), fun odt hmem => ?_, h.ports⟩
  · rcases List.mem_cons.mp hmem with heq | hmem
    · obtain ⟨rfl, hpc⟩ := Sigma.mk.inj_iff.mp heq
      obtain rfl := eq_of_heq hpc
      -- it was not active: its level is its own
      refine h.notCalling m fun pc hmem => ?_
      have hlt : (IRQn.dma1Adc m).preemptPriority < (IRQn.dma1Adc m).preemptPriority :=
        hn.enter hi _ hmem
      exact lt_irrefl _ hlt
    · exact h.calling m pc hmem
  · rcases List.mem_cons.mp hmem with heq | hmem
    · obtain ⟨rfl, hpc⟩ := Sigma.mk.inj_iff.mp heq
      cases eq_of_heq hpc
    · exact h.loaded odt hmem

/-- A step of a control handler: it moves its own encoder as `o`, what is left of it, says. -/
theorem Coherent.control (h : Coherent c) (hn : (board strtof).Nested c.active) {m : Motor}
    {pc : ControlPc} {rest : List (Σ i : IRQn, i.Local)} (ha : c.active = ⟨.dma1Adc m, pc⟩ :: rest)
    {b : Board} {o : Option ControlPc} {ret : List IRQn}
    (hb : ∃ p1 p2, Between p1 p2 (b.encoder m))
    (hother : ∀ g ≠ m, b.encoder g = c.shared.encoder g)
    (hpc : (b.encoder m).pc = (o.map ControlPc.encoderPc).getD .idle) (hports : Ports b) :
    Coherent ⟨b, (o.map fun pc => ⟨.dma1Adc m, pc⟩).toList ++ rest, ret⟩ := by
  have hrest : ∀ g (pc : ControlPc), (⟨.dma1Adc g, pc⟩ : Σ i : IRQn, i.Local) ∉ rest :=
    fun g pc hmem => nested_below hn ha rfl _ hmem rfl
  have hled : ∀ pc : TickPc, (⟨.tmr5Global, pc⟩ : Σ i : IRQn, i.Local) ∉ rest :=
    fun pc hmem => nested_below hn ha rfl _ hmem rfl
  refine ⟨fun g => ?_, fun g pc' hmem => ?_, fun g hno => ?_, fun odt hmem => ?_, hports⟩
  · by_cases hg : g = m
    · exact hg ▸ hb
    · rw [hother g hg]
      exact h.encoder g
  · rcases List.mem_append.mp hmem with hmem | hmem
    · cases o with
      | none => cases hmem
      | some pc'' =>
        cases List.mem_singleton.mp hmem
        exact hpc
    · exact absurd hmem (hrest g pc')
  · by_cases hg : g = m
    · subst hg
      cases o with
      | none => exact hpc
      | some pc'' => exact absurd (List.mem_append_left _ (List.mem_singleton.mpr rfl)) (hno pc'')
    · dsimp only
      rw [hother g hg]
      refine h.notCalling g fun pc' hmem => ?_
      rw [ha] at hmem
      rcases List.mem_cons.mp hmem with heq | hmem
      · cases heq
        exact hg rfl
      · exact hrest g pc' hmem
  · rcases List.mem_append.mp hmem with hmem | hmem
    · cases o with
      | none => cases hmem
      | some pc'' => cases List.mem_singleton.mp hmem
    · exact absurd hmem (hled _)

theorem Coherent.controlMicro (h : Coherent c) (hn : (board strtof).Nested c.active) {m : Motor}
    {pc : ControlPc} {rest : List (Σ i : IRQn, i.Local)} (ha : c.active = ⟨.dma1Adc m, pc⟩ :: rest)
    (ret : List IRQn) :
    let r := At32Foc.controlMicro m pc c.shared
    Coherent ⟨r.1, (r.2.map fun pc => ⟨.dma1Adc m, pc⟩).toList ++ rest, ret⟩ := by
  have hcall : (c.shared.encoder m).pc = pc.encoderPc :=
    h.calling m pc (by rw [ha]; exact List.mem_cons_self)
  obtain ⟨p1, p2, hb⟩ := h.encoder m
  have hsame : ∀ (e : Encoder), ∀ g ≠ m, (c.shared.setEncoder m e).encoder g = c.shared.encoder g :=
    fun e g hg => Function.update_of_ne hg _ _
  have hself : ∀ e : Encoder, (c.shared.setEncoder m e).encoder m = e :=
    fun e => Function.update_self _ _ _
  intro r
  cases pc with
  | flag =>
    simp only [r, At32Foc.controlMicro]
    split_ifs <;>
      exact h.control hn ha ⟨p1, p2, hb⟩ (fun _ _ => rfl) hcall ⟨h.ports.A, h.ports.B⟩
  | start =>
    have hstep : encoderStep (c.shared.encoder m) (.start (c.shared.word m)) = _ := if_pos hcall
    refine h.control hn ha ⟨p1, p2, ?_⟩ (fun g hg => ?_) ?_ (h.ports.setCS (by rw [hstep]))
    · simp only [r, At32Foc.controlMicro, Board.setCS_encoder, hself]
      exact hb.start _
    · simp only [r, At32Foc.controlMicro, Board.setCS_encoder]
      exact hsame _ g hg
    · simp only [r, At32Foc.controlMicro, Board.setCS_encoder, hself]
      rw [hstep]
      rfl
  | write =>
    have hstep : encoderStep (c.shared.encoder m) .write = _ := if_pos hcall
    refine h.control hn ha ⟨p1, p2, ?_⟩ (hsame _) ?_ (h.ports.setEncoder (by rw [hstep]; rfl))
    · simp only [r, At32Foc.controlMicro, hself]
      exact hb.write
    · simp only [r, At32Foc.controlMicro, hself]
      rw [hstep]
      rfl
  | wait =>
    simp only [r, At32Foc.controlMicro]
    split_ifs with hready
    · have hstep : encoderStep (c.shared.encoder m) .decode = _ := if_pos ⟨hcall, hready⟩
      refine h.control hn ha ⟨p1, p2, ?_⟩ (hsame _) ?_ (h.ports.setEncoder (by rw [hstep]))
      · rw [hself]
        exact hb.decode
      · rw [hself, hstep]
        rfl
    · exact h.control hn ha ⟨p1, p2, hb⟩ (fun _ _ => rfl) hcall h.ports
  | angle angle =>
    refine h.control hn ha ⟨p1, p2, hb⟩ (fun _ _ => rfl) hcall ⟨h.ports.A.trans ?_, h.ports.B⟩
    cases m <;> rfl
  | stage k =>
    refine h.control hn ha ⟨p1, p2, hb⟩ (fun _ _ => rfl) ?_ ⟨h.ports.A.trans ?_, h.ports.B⟩
    · rw [show (r.1.encoder m).pc = .idle from hcall]
      cases k <;> rfl
    · cases k <;> cases m <;> rfl

/-- The SPI handler: pending, so no tick is active. -/
theorem Coherent.spi (h : Coherent c) (hn : (board strtof).Nested c.active) {m : Motor}
    {l : Unit} {rest : List (Σ i : IRQn, i.Local)} (ha : c.active = ⟨.dma1Spi m, l⟩ :: rest)
    (ret : List IRQn) : Coherent ⟨spiHandler m c.shared, rest, ret⟩ := by
  have htop : Coherent ⟨c.shared, rest, ret⟩ := h.pop ha (fun _ => nofun) ret
  unfold spiHandler
  dsimp only
  split_ifs with hfdt
  · obtain ⟨p1, p2, hb⟩ := h.encoder m
    have hstep : encoderStep (c.shared.encoder m) .irq = _ := if_pos hfdt
    have henc : ((c.shared.setEncoder m
        (encoderStep (c.shared.encoder m) .irq)).setCS m true).encoder =
        Function.update c.shared.encoder m (encoderStep (c.shared.encoder m) .irq) :=
      Board.setCS_encoder m true _
    have hpc : ∀ g, (Function.update c.shared.encoder m
        (encoderStep (c.shared.encoder m) .irq) g).pc = (c.shared.encoder g).pc := by
      intro g
      by_cases hg : g = m
      · subst hg
        rw [Function.update_self, hstep]
      · rw [Function.update_of_ne hg]
    refine ⟨fun g => ?_, fun g pc hmem => ?_, fun g hno => ?_, fun odt hmem => ?_,
      h.ports.setCS (by rw [hstep])⟩
    · dsimp only
      rw [henc]
      by_cases hg : g = m
      · subst hg
        rw [Function.update_self]
        exact ⟨p1, p2, hb.irq⟩
      · rw [Function.update_of_ne hg]
        exact h.encoder g
    · dsimp only
      rw [henc, hpc]
      exact htop.calling g pc hmem
    · dsimp only
      rw [henc, hpc]
      exact htop.notCalling g hno
    · -- the control handler that waits for this excludes the tick
      have hwait := h.pending hfdt
      have htick : (⟨.tmr5Global, .ledStore odt⟩ : Σ i : IRQn, i.Local) ∈ c.active := by
        rw [ha]
        exact List.mem_cons_of_mem _ hmem
      cases hn.unique hwait htick rfl
  · exact htop

/-- A step of the tick: no control handler is active. -/
theorem Coherent.tick (h : Coherent c) (hn : (board strtof).Nested c.active) {pc : TickPc}
    {rest : List (Σ i : IRQn, i.Local)} (ha : c.active = ⟨.tmr5Global, pc⟩ :: rest)
    {b : Board} {o : Option TickPc} {ret : List IRQn} (henc : b.encoder = c.shared.encoder)
    (hload : ∀ odt, o = some (.ledStore odt) → odt = b.odtA) (hports : Ports b) :
    Coherent ⟨b, (o.map fun pc => ⟨.tmr5Global, pc⟩).toList ++ rest, ret⟩ := by
  have hrest : ∀ g (pc : ControlPc), (⟨.dma1Adc g, pc⟩ : Σ i : IRQn, i.Local) ∉ rest :=
    fun g pc hmem => nested_below hn ha rfl _ hmem rfl
  have hled : ∀ pc : TickPc, (⟨.tmr5Global, pc⟩ : Σ i : IRQn, i.Local) ∉ rest :=
    fun pc hmem => nested_below hn ha rfl _ hmem rfl
  refine ⟨henc ▸ h.encoder, fun g pc' hmem => ?_, fun g _ => ?_, fun odt hmem => ?_, hports⟩
  · rcases List.mem_append.mp hmem with hmem | hmem
    · cases o with
      | none => cases hmem
      | some pc'' => cases List.mem_singleton.mp hmem
    · exact absurd hmem (hrest g pc')
  · dsimp only
    rw [henc]
    refine h.notCalling g fun pc' hmem => ?_
    rw [ha] at hmem
    rcases List.mem_cons.mp hmem with heq | hmem
    · cases heq
    · exact hrest g pc' hmem
  · rcases List.mem_append.mp hmem with hmem | hmem
    · cases o with
      | none => cases hmem
      | some pc'' =>
        cases List.mem_singleton.mp hmem
        exact hload odt rfl
    · exact absurd hmem (hled _)

/-- The two sides of `odt ^= pin`. -/
theorem pinsA_toggle (cs led : Bool) :
    pinsA cs led ^^^ ledGpioPin.getD 0 0 = pinsA cs !led := by
  cases cs <;> cases led <;> decide

theorem Coherent.tickMicro (h : Coherent c) (hn : (board strtof).Nested c.active) {pc : TickPc}
    {rest : List (Σ i : IRQn, i.Local)} (ha : c.active = ⟨.tmr5Global, pc⟩ :: rest)
    (ret : List IRQn) :
    let r := At32Foc.tickMicro pc c.shared
    Coherent ⟨r.1, (r.2.map fun pc => ⟨.tmr5Global, pc⟩).toList ++ rest, ret⟩ := by
  intro r
  cases pc with
  | count =>
    refine h.tick hn ha rfl (fun odt ho => ?_) ⟨h.ports.A, h.ports.B⟩
    simp only [r, At32Foc.tickMicro, Option.some.injEq] at ho
    split_ifs at ho
  | ledLoad =>
    simp only [r, At32Foc.tickMicro]
    split_ifs
    · exact h.tick hn ha rfl (fun odt ho => by cases ho) h.ports
    · exact h.tick hn ha rfl (fun odt ho => by cases ho; rfl) h.ports
  | ledStore odt =>
    have hodt : odt = c.shared.odtA := h.loaded odt (by rw [ha]; exact List.mem_cons_self)
    refine h.tick hn ha rfl (fun odt ho => by cases ho) ⟨?_, h.ports.B⟩
    show odt ^^^ ledGpioPin.getD 0 0 = _
    rw [hodt, h.ports.A]
    exact pinsA_toggle _ _
  | reset => exact h.tick hn ha rfl (fun odt ho => by cases ho) ⟨h.ports.A, h.ports.B⟩
  | speed m =>
    cases m <;> exact h.tick hn ha rfl (fun odt ho => by cases ho) ⟨h.ports.A, h.ports.B⟩
  | speedPI m =>
    cases m <;> exact h.tick hn ha rfl (fun odt ho => by cases ho) ⟨h.ports.A, h.ports.B⟩
  | clear => exact h.tick hn ha rfl (fun odt ho => by cases ho) ⟨h.ports.A, h.ports.B⟩

/-- A handler of one step that leaves encoders, ports and LED alone. -/
theorem Coherent.leave (h : Coherent c) {i : IRQn} {l : i.Local}
    {rest : List (Σ i : IRQn, i.Local)} (ha : c.active = ⟨i, l⟩ :: rest)
    (hi : ∀ m, i ≠ .dma1Adc m) {b : Board} (ret : List IRQn)
    (henc : b.encoder = c.shared.encoder) (hA : b.odtA = c.shared.odtA)
    (hB : b.odtB = c.shared.odtB) (hmain : b.main = c.shared.main) : Coherent ⟨b, rest, ret⟩ :=
  (h.pop ha hi ret).of_same rfl henc hA hB (by rw [hmain])

theorem mainStep_LED0 (msg : Option (List UInt8)) (s : MainLoop) :
    (mainStep strtof msg s).sys.LED0 = s.sys.LED0 := by
  have hfoc : ∀ m p, (s.sys.setFoc m p).LED0 = s.sys.LED0 := fun m _ => by cases m <;> rfl
  have hpar : ∀ m p, (s.sys.setParams m p).LED0 = s.sys.LED0 := fun m _ => by cases m <;> rfl
  rw [mainStep]
  cases s.pc with
  | test c m =>
    dsimp only
    split_ifs <;> rfl
  | store c m k =>
    dsimp only
    split
    · exact hfoc m _
    · exact hpar m _
  | parse => cases msg <;> rfl
  | _ => rfl

theorem Coherent.hardware (h : Coherent c) (e : HardwareEvent) :
    Coherent { c with shared := At32Foc.hardware e c.shared } := by
  cases e with
  | txDma m =>
    -- the TX channel is exhausted
    obtain ⟨p1, p2, hb⟩ := h.encoder m
    have hidle : ¬(c.shared.encoder m).DMA_TX.Active := fun hact => absurd hb.tx hact.2.ne'
    have hstep : encoderStep (c.shared.encoder m) .txDma = c.shared.encoder m := if_neg hidle
    refine h.of_same rfl ?_ rfl rfl rfl
    simp only [At32Foc.hardware, hstep, Board.setEncoder, Function.update_eq_self]
  | _ => exact h.of_same rfl rfl rfl rfl rfl

theorem Coherent.thread (h : Coherent c) :
    Coherent { c with shared := mainThread strtof c.shared } := by
  have hrest : (mainThread strtof c.shared).encoder = c.shared.encoder ∧
      (mainThread strtof c.shared).odtA = c.shared.odtA ∧
      (mainThread strtof c.shared).odtB = c.shared.odtB := by
    unfold mainThread
    split
    · exact ⟨rfl, rfl, rfl⟩
    · split
      · split <;> exact ⟨rfl, rfl, rfl⟩
      · split <;> exact ⟨rfl, rfl, rfl⟩
      · exact ⟨rfl, rfl, rfl⟩
  refine h.of_same rfl hrest.1 hrest.2.1 hrest.2.2 ?_
  dsimp only
  rcases mainThread_main strtof c.shared with hm | ⟨msg, hm⟩ <;> rw [hm]
  exact mainStep_LED0 msg _

/-- Every step of the core. -/
theorem step_coherent (e : CoreEvent IRQn HardwareEvent)
    (hc : (board strtof).Nested c.active ∧ Coherent c) :
    (board strtof).Nested ((board strtof).step c e).active ∧
      Coherent ((board strtof).step c e) := by
  obtain ⟨hn, h⟩ := hc
  refine ⟨step_nested c e hn, ?_⟩
  refine (board strtof).step_cases e h (fun e => h.hardware e) (fun i _ hi => h.enter hn hi)
    (fun _ => h.thread) (fun i l rest b l' ha hb => ?_) (fun i l rest b ha hb => ?_)
  · have hb : micro i l c.shared = (b, some l') := hb
    cases i with
    | dma1Adc m =>
      have hr := h.controlMicro hn ha c.returned
      rwa [show controlMicro m l c.shared = (b, some l') from hb] at hr
    | tmr5Global =>
      have hr := h.tickMicro hn ha c.returned
      rwa [show At32Foc.tickMicro l c.shared = (b, some l') from hb] at hr
    | _ => cases hb
  · have hb : micro i l c.shared = (b, none) := hb
    cases i with
    | dma1Adc m =>
      have hr := h.controlMicro hn ha (c.returned ++ [.dma1Adc m])
      rwa [show controlMicro m l c.shared = (b, none) from hb] at hr
    | tmr5Global =>
      have hr := h.tickMicro hn ha (c.returned ++ [.tmr5Global])
      rwa [show At32Foc.tickMicro l c.shared = (b, none) from hb] at hr
    | dma1Spi m =>
      cases hb
      exact h.spi hn ha _
    | dma1Channel7 =>
      cases hb
      unfold dma1Channel7Handler
      split <;> exact h.leave ha nofun _ rfl rfl rfl rfl
    | usbfsLCan1Rx0 =>
      cases hb
      unfold usbfsLCan1Rx0Handler
      split <;> exact h.leave ha nofun _ rfl rfl rfl rfl
    | can1Se =>
      cases hb
      exact h.leave ha nofun _ rfl rfl rfl rfl
    | usart1 =>
      cases hb
      unfold usart1Handler
      split <;> exact h.leave ha nofun _ rfl rfl rfl rfl

end Coherent

/-! ## Boot -/

/-- A call that nothing disturbs ends idle, with chip select high. -/
theorem encoderCall_idle {p1 p2 : UInt8} {e : Encoder} (h : Between p1 p2 e)
    (hpc : e.pc = .idle) (w : Word) :
    (run encoderStep e (encoderCall w)).pc = .idle ∧
      (run encoderStep e (encoderCall w)).CS = true := by
  have hstart : encoderStep e (.start w) = _ := if_pos hpc
  have hs := h.start w
  have hwrite : encoderStep (encoderStep e (.start w)) .write = _ := if_pos (by rw [hstart])
  have hx := exchange_of_between hs (by rw [hstart])
  have hfdt : (encoderStep (encoderStep e (.start w)) .write).DMA_RX.fdt = true := by
    rw [hwrite]
    dsimp only
    rw [hx]
  have hirq : encoderStep (encoderStep (encoderStep e (.start w)) .write) .irq = _ := if_pos hfdt
  have hdec : encoderStep (encoderStep (encoderStep (encoderStep e (.start w)) .write) .irq)
      .decode = _ := if_pos (by rw [hirq, hwrite]; exact ⟨rfl, rfl⟩)
  simp only [encoderCall, run_cons, run_nil]
  rw [hdec, hirq]
  exact ⟨rfl, rfl⟩

theorem encoderReady_idle (m : Motor) (p : PowerOn) :
    (∃ p1 p2, Between p1 p2 (encoderReady m p)) ∧ (encoderReady m p).pc = .idle ∧
      (encoderReady m p).CS = true := by
  refine ⟨⟨_, _, run_between m _ _ _⟩, ?_⟩
  have hboot : (encoderBoot m (p.rxBuf m) (p.miso m)).pc = .idle ∧
      (encoderBoot m (p.rxBuf m) (p.miso m)).CS = true := by
    cases m <;> exact ⟨rfl, rfl⟩
  have hb := encoderBoot_between m (p.rxBuf m) (p.miso m)
  unfold encoderReady
  generalize encoderBoot m (p.rxBuf m) (p.miso m) = e at hboot hb
  induction p.calls m generalizing e with
  | nil => exact hboot
  | cons w ws ih =>
    rw [List.flatMap_cons, run_append]
    exact ih _ (encoderCall_idle hb hboot.1 w) (run_invariant encoderStep_between _ _ hb)

theorem boot_coherent (p : PowerOn) : Coherent ⟨boardBoot p, [], []⟩ := by
  refine ⟨fun m => (encoderReady_idle m p).1, nofun, fun m _ => (encoderReady_idle m p).2.1, nofun,
    ?_, ?_⟩
  · show (0x0010#16 : BitVec 16) = pinsA (encoderReady .M1 p).CS false
    rw [(encoderReady_idle .M1 p).2.2]
    rfl
  · show (0x1000#16 : BitVec 16) = pinsB (encoderReady .M2 p).CS
    rw [(encoderReady_idle .M2 p).2.2]
    rfl

theorem run_coherent (strtof : List UInt8 → ℚ) (p : PowerOn)
    (cevs : List (CoreEvent IRQn HardwareEvent)) :
    (board strtof).Nested (boardRun strtof p cevs).active ∧ Coherent (boardRun strtof p cevs) :=
  run_invariant (I := fun c : BoardCore => (board strtof).Nested c.active ∧ Coherent c)
    (fun _ e h => step_coherent e h) cevs ⟨boardBoot p, [], []⟩
    ⟨List.Pairwise.nil, boot_coherent p⟩

/-! ## Every handler can return -/

def ControlPc.weight : ControlPc → ℕ
  | .flag => 17
  | .start => 16
  | .write => 13
  | .wait => 12
  | .angle _ => 9
  | .stage .sampleA => 8
  | .stage .sampleB => 7
  | .stage .currents => 6
  | .stage .control => 5
  | .stage .svpwm => 4
  | .stage .pwmA => 3
  | .stage .pwmB => 2
  | .stage .pwmC => 1

def TickPc.weight : TickPc → ℕ
  | .count => 9
  | .ledLoad => 8
  | .ledStore _ => 7
  | .reset => 6
  | .speed .M1 => 5
  | .speed .M2 => 4
  | .speedPI .M1 => 3
  | .speedPI .M2 => 2
  | .clear => 1

/-- What is left of a handler. -/
def handlerWeight : (Σ i : IRQn, i.Local) → ℕ
  | ⟨.dma1Adc _, pc⟩ => pc.weight
  | ⟨.tmr5Global, pc⟩ => pc.weight
  | ⟨.dma1Spi _, _⟩ | ⟨.dma1Channel7, _⟩ | ⟨.usbfsLCan1Rx0, _⟩ | ⟨.can1Se, _⟩ | ⟨.usart1, _⟩ => 1

def notReady (e : Encoder) : ℕ := if e.dataReady then 0 else 1

/-- What is left of all handlers, and the encoders that have no data. -/
def coreWeight (c : BoardCore) : ℕ :=
  (c.active.map handlerWeight).sum + notReady (c.shared.encoder .M1) +
    notReady (c.shared.encoder .M2)

theorem notReady_le (e : Encoder) : notReady e ≤ 1 := by
  unfold notReady
  split_ifs <;> omega

/-- The encoders after one of them has changed. -/
theorem notReady_update (f : Motor → Encoder) (m : Motor) (e : Encoder) :
    notReady (Function.update f m e .M1) + notReady (Function.update f m e .M2) + notReady (f m) =
      notReady (f .M1) + notReady (f .M2) + notReady e := by
  cases m <;> simp [Function.update] <;> omega

/-- A handler that does not wait in vain gets nearer to its return by its next step. -/
theorem micro_weight (i : IRQn) (l : i.Local) (b : Board)
    (hwait : ∀ m, (⟨i, l⟩ : Σ i : IRQn, i.Local) = ⟨.dma1Adc m, ControlPc.wait⟩ →
      (b.encoder m).dataReady = true) :
    (((micro i l b).2.map fun l' => handlerWeight ⟨i, l'⟩).getD 0) +
        notReady ((micro i l b).1.encoder .M1) + notReady ((micro i l b).1.encoder .M2) <
      handlerWeight ⟨i, l⟩ + notReady (b.encoder .M1) + notReady (b.encoder .M2) := by
  cases i with
  | dma1Adc m =>
    show (((controlMicro m l b).2.map ControlPc.weight).getD 0) +
        notReady ((controlMicro m l b).1.encoder .M1) +
        notReady ((controlMicro m l b).1.encoder .M2) <
      l.weight + notReady (b.encoder .M1) + notReady (b.encoder .M2)
    cases l with
    | flag =>
      rw [controlMicro]
      split_ifs <;> simp [ControlPc.weight]
    | start =>
      have hu := notReady_update b.encoder m (encoderStep (b.encoder m) (.start (b.word m)))
      have h1 := notReady_le (encoderStep (b.encoder m) (.start (b.word m)))
      simp only [controlMicro, Board.setCS_encoder, Board.setEncoder, Option.map_some,
        Option.getD_some, ControlPc.weight]
      omega
    | write =>
      have hu := notReady_update b.encoder m (encoderStep (b.encoder m) .write)
      have h1 : notReady (encoderStep (b.encoder m) .write) = notReady (b.encoder m) := by
        rw [encoderStep]
        split_ifs <;> rfl
      simp only [controlMicro, Board.setEncoder, Option.map_some, Option.getD_some,
        ControlPc.weight]
      omega
    | wait =>
      have hu := notReady_update b.encoder m (encoderStep (b.encoder m) .decode)
      have h1 := notReady_le (encoderStep (b.encoder m) .decode)
      simp only [controlMicro, hwait m rfl, if_true, Board.setEncoder, Option.map_some,
        Option.getD_some, ControlPc.weight]
      omega
    | angle angle => simp [controlMicro, Board.mapSys, ControlPc.weight]
    | stage k => cases k <;> simp [controlMicro, Board.mapSys, ControlPc.weight, Stage.next]
  | tmr5Global =>
    show (((At32Foc.tickMicro l b).2.map TickPc.weight).getD 0) +
        notReady ((At32Foc.tickMicro l b).1.encoder .M1) +
        notReady ((At32Foc.tickMicro l b).1.encoder .M2) <
      l.weight + notReady (b.encoder .M1) + notReady (b.encoder .M2)
    cases l with
    | count =>
      simp only [At32Foc.tickMicro]
      split_ifs <;> simp [Board.mapSys, TickPc.weight]
    | ledLoad =>
      simp only [At32Foc.tickMicro]
      split_ifs <;> simp [TickPc.weight]
    | speed m => cases m <;> simp [At32Foc.tickMicro, Board.mapSys, TickPc.weight]
    | speedPI m => cases m <;> simp [At32Foc.tickMicro, Board.mapSys, TickPc.weight]
    | _ => simp [At32Foc.tickMicro, Board.mapSys, TickPc.weight]
  | dma1Spi m =>
    have hu := notReady_update b.encoder m (encoderStep (b.encoder m) .irq)
    have h1 : notReady (encoderStep (b.encoder m) .irq) ≤ notReady (b.encoder m) := by
      rw [encoderStep]
      split_ifs
      · simp [notReady]
      · exact le_rfl
    simp only [micro, spiHandler, Option.map_none, Option.getD_none, handlerWeight]
    split_ifs
    · simp only [Board.setCS_encoder, Board.setEncoder]
      omega
    · omega
  | dma1Channel7 =>
    simp only [micro, dma1Channel7Handler, handlerWeight]
    split_ifs <;> simp
  | usbfsLCan1Rx0 =>
    simp only [micro, usbfsLCan1Rx0Handler, handlerWeight]
    split_ifs <;> simp
  | can1Se => simp [micro, handlerWeight]
  | usart1 =>
    simp only [micro, usart1Handler, handlerWeight]
    split_ifs <;> simp

section Return

variable {strtof : List UInt8 → ℚ} {c : BoardCore}

/-- The step of the running handler, where that does not wait in vain. -/
theorem execute_weight {i : IRQn} {l : i.Local} {rest : List (Σ i : IRQn, i.Local)}
    (ha : c.active = ⟨i, l⟩ :: rest)
    (hwait : ∀ m, (⟨i, l⟩ : Σ i : IRQn, i.Local) = ⟨.dma1Adc m, ControlPc.wait⟩ →
      (c.shared.encoder m).dataReady = true) :
    coreWeight ((board strtof).step c .execute) < coreWeight c := by
  have hw := micro_weight i l c.shared hwait
  rcases hm : micro i l c.shared with ⟨b, _ | l'⟩
  · rw [hm] at hw
    simp only [Option.map_none, Option.getD_none] at hw
    rw [step_execute_return ha hm, coreWeight, coreWeight, ha]
    simp only [List.map_cons, List.sum_cons]
    omega
  · rw [hm] at hw
    simp only [Option.map_some, Option.getD_some] at hw
    rw [step_execute_micro ha hm, coreWeight, coreWeight, ha]
    simp only [List.map_cons, List.sum_cons]
    omega

/-- A control handler that waits for its encoder is preempted by what it waits for. -/
theorem wait_weight (h : Coherent c) {m : Motor} {rest : List (Σ i : IRQn, i.Local)}
    (ha : c.active = ⟨.dma1Adc m, ControlPc.wait⟩ :: rest)
    (hready : (c.shared.encoder m).dataReady = false) :
    coreWeight (run (board strtof).step c [.enter (.dma1Spi m), .execute]) < coreWeight c := by
  obtain ⟨p1, p2, hb⟩ := h.encoder m
  have hpc : (c.shared.encoder m).pc = .waiting :=
    h.calling m .wait (by rw [ha]; exact List.mem_cons_self)
  have hfdt : (c.shared.encoder m).DMA_RX.fdt = true := by
    cases hb.transaction with
    | received _ hfdt => exact hfdt
    | idle h' => rw [hpc] at h'; cases h'
    | started h' => rw [hpc] at h'; cases h'
    | ready _ _ h' => rw [hready] at h'; cases h'
  have henter : (board strtof).step c (.enter (.dma1Spi m)) =
      { c with active := ⟨.dma1Spi m, ()⟩ :: c.active } := by
    refine if_pos ⟨hfdt, fun f hf => ?_⟩
    rw [ha] at hf
    cases hf
    exact Nat.zero_lt_one
  have hirq : encoderStep (c.shared.encoder m) .irq = _ := if_pos hfdt
  have hexec : run (board strtof).step c [.enter (.dma1Spi m), .execute] =
      ⟨spiHandler m c.shared, c.active, c.returned ++ [.dma1Spi m]⟩ := by
    rw [run_cons, henter, run_cons, run_nil]
    exact step_execute_return rfl rfl
  have henc : (spiHandler m c.shared).encoder =
      Function.update c.shared.encoder m (encoderStep (c.shared.encoder m) .irq) := by
    unfold spiHandler
    dsimp only
    rw [if_pos hfdt]
    cases m <;> rfl
  have hu := notReady_update c.shared.encoder m (encoderStep (c.shared.encoder m) .irq)
  have h0 : notReady (encoderStep (c.shared.encoder m) .irq) = 0 := by rw [hirq]; rfl
  have h1 : notReady (c.shared.encoder m) = 1 := by rw [notReady, hready]; rfl
  rw [hexec]
  simp only [coreWeight, henc]
  omega

theorem run_step_coherent (evs : List (CoreEvent IRQn HardwareEvent))
    (hc : (board strtof).Nested c.active ∧ Coherent c) :
    (board strtof).Nested (run (board strtof).step c evs).active ∧
      Coherent (run (board strtof).step c evs) :=
  run_invariant (I := fun c : BoardCore => (board strtof).Nested c.active ∧ Coherent c)
    (fun _ e h => step_coherent e h) evs c hc

end Return

/-- **No deadlock.**  In every state of the core, however deep the handlers are nested, the
core can return from all of them by its own steps, without further requests from the
hardware. -/
theorem handlers_can_return (strtof : List UInt8 → ℚ) (p : PowerOn)
    (cevs : List (CoreEvent IRQn HardwareEvent)) :
    let c := boardRun strtof p cevs
    ∃ evs : List (CoreEvent IRQn HardwareEvent), (∀ e ∈ evs, CoreEvent.IsOwn e) ∧
      (run (board strtof).step c evs).active = [] := by
  refine drains (I := fun c : BoardCore => (board strtof).Nested c.active ∧ Coherent c) coreWeight
    (fun c hc hne => ?_) _ (run_coherent strtof p cevs)
  obtain ⟨⟨i, l⟩, rest, ha⟩ := List.exists_cons_of_ne_nil hne
  by_cases hwait : ∃ m, (⟨i, l⟩ : Σ i : IRQn, i.Local) = ⟨.dma1Adc m, ControlPc.wait⟩ ∧
      (c.shared.encoder m).dataReady = false
  · obtain ⟨m, heq, hready⟩ := hwait
    rw [heq] at ha
    exact ⟨[.enter (.dma1Spi m), .execute], by simp [CoreEvent.IsOwn], run_step_coherent _ hc,
      wait_weight hc.2 ha hready⟩
  · refine ⟨[.execute], by simp [CoreEvent.IsOwn], run_step_coherent _ hc,
      execute_weight ha fun m heq => ?_⟩
    by_contra hno
    exact hwait ⟨m, heq, Bool.eq_false_iff.mpr hno⟩

end At32Foc
