import At32Foc.Parameters
import At32Foc.Noninterference

/-!
# Commands and the bytes before them

A message overwrites the head of the receive buffer, and the parser reads on behind it
into what earlier, longer messages left there (`residue`), up to a NUL.  With messages
of at most 63 bytes the last byte of the buffer stays NUL, so a parse never leaves it.

* `deliver_params`: a message is parsed with the residue behind it.
* `residue_eq_nil_iff`: there is none if and only if no earlier message was longer.
* `messages_alone_iff`: a sequence of messages has the effect of the messages alone if
  and only if the last message for each parameter reads the same number with its residue.
-/

namespace At32Foc

open ControlLib

/-! ## Messages -/

/-- An accepted command without a NUL that leaves the last byte of the buffer alone. -/
structure Message where
  bytes : List UInt8
  group : Motor
  param : Param
  text : List UInt8
  short : bytes.length ≤ 63
  noNul : (0 : UInt8) ∉ bytes
  routes : Routes bytes group param text

/-- The message sets this parameter. -/
def Message.Sets (m : Message) (g : Motor) (q : Param) : Prop := m.group = g ∧ m.param = q

/-- What the parser finds behind a message in a buffer that held `buf` before it. -/
def residue (buf : List UInt8) (m : Message) : List UInt8 := cString (buf.drop m.bytes.length)

/-- The receive buffer after the messages `msgs` since boot. -/
def bufferAfter (msgs : List Message) : List UInt8 :=
  run (fun buf m => rxWrite m.bytes buf) (List.replicate RX_BUFFER_SIZE 0) msgs

section Runs

variable (strtof : List UInt8 → ℚ) (beyond : List UInt8)

/-- A message arrives, the line goes idle, and the main loop parses the buffer. -/
def deliver (f : Firmware) (m : Message) : Firmware :=
  run (firmwareStep strtof) f [.uart m.bytes, .parse beyond]

def Firmware.params (f : Firmware) : PIDParams ℚ × PIDParams ℚ :=
  (f.sys.pidParams1, f.sys.pidParams2)

/-- A message parsed as a NUL-terminated string of its own. -/
def parseAlone (ps : PIDParams ℚ × PIDParams ℚ) (m : Message) : PIDParams ℚ × PIDParams ℚ :=
  parseAndSetPid strtof m.bytes ps.1 ps.2

/-- A message parsed with what is behind it, and the buffer it leaves. -/
def parseWithResidue (r : List UInt8 × (PIDParams ℚ × PIDParams ℚ)) (m : Message) :
    List UInt8 × (PIDParams ℚ × PIDParams ℚ) :=
  (rxWrite m.bytes r.1, parseAndSetPid strtof (m.bytes ++ residue r.1 m) r.2.1 r.2.2)

/-! ## The buffer -/

/-- A buffer whose last byte is NUL. -/
def Terminated (buf : List UInt8) : Prop :=
  ∃ head, buf = head ++ [0] ∧ head.length = 63

theorem terminated_boot : Terminated (List.replicate RX_BUFFER_SIZE 0) :=
  ⟨List.replicate 63 0, rfl, rfl⟩

variable {buf : List UInt8}

theorem Terminated.length (h : Terminated buf) : buf.length = RX_BUFFER_SIZE := by
  obtain ⟨head, rfl, hlen⟩ := h
  rw [List.length_append, hlen]
  rfl

theorem Terminated.rxWrite_eq (h : Terminated buf) (m : Message) :
    rxWrite m.bytes buf = m.bytes ++ buf.drop m.bytes.length :=
  rxWrite_of_length_le h.length (m.short.trans (by decide))

theorem Terminated.rxWrite (h : Terminated buf) (m : Message) :
    Terminated (rxWrite m.bytes buf) := by
  rw [h.rxWrite_eq]
  obtain ⟨head, rfl, hlen⟩ := h
  have hm := m.short
  refine ⟨m.bytes ++ head.drop m.bytes.length, ?_, ?_⟩
  · rw [List.drop_append_of_le_length (by omega), List.append_assoc]
  · rw [List.length_append, List.length_drop]
    omega

/-- The string at the head of the buffer ends inside it. -/
theorem Terminated.cString_rxWrite (h : Terminated buf) (m : Message) :
    cString (At32Foc.rxWrite m.bytes buf ++ beyond) = m.bytes ++ residue buf m := by
  rw [h.rxWrite_eq, List.append_assoc, cString_append_of_notMem m.noNul, residue]
  obtain ⟨head, rfl, hlen⟩ := h
  rw [cString_append]
  rw [List.drop_append_of_le_length (by have := m.short; omega)]
  simp

theorem bufferAfter_append (pre : List Message) (m : Message) :
    bufferAfter (pre ++ [m]) = rxWrite m.bytes (bufferAfter pre) := by
  rw [bufferAfter, run_append]
  rfl

theorem bufferAfter_terminated (msgs : List Message) : Terminated (bufferAfter msgs) :=
  run_invariant (fun _ m h => h.rxWrite m) msgs _ terminated_boot

/-- A place in the buffer is NUL as long as no message has reached it. -/
theorem bufferAfter_getD (msgs : List Message) (n : ℕ) :
    (bufferAfter msgs).getD n 0 = 0 ↔ ∀ m ∈ msgs, m.bytes.length ≤ n := by
  induction msgs using List.reverseRecOn with
  | nil =>
    refine ⟨fun _ m hm => absurd hm List.not_mem_nil, fun _ => ?_⟩
    simp only [bufferAfter, run_nil, List.getD_eq_getElem?_getD, List.getElem?_replicate]
    split_ifs <;> rfl
  | append_singleton msgs m ih =>
    rw [bufferAfter_append, (bufferAfter_terminated msgs).rxWrite_eq, List.forall_mem_append,
      List.forall_mem_singleton, ← ih]
    rcases lt_or_ge n m.bytes.length with hn | hn
    · have hne : m.bytes[n] ≠ 0 := fun h0 => m.noNul (h0 ▸ List.getElem_mem hn)
      rw [List.getD_append _ _ _ _ hn, List.getD_eq_getElem _ _ hn]
      exact ⟨fun h0 => absurd h0 hne, fun h => absurd h.2 (by omega)⟩
    · have hdrop : m.bytes.length + (n - m.bytes.length) = n := by omega
      rw [List.getD_append_right _ _ _ _ hn, List.getD_eq_getElem?_getD, List.getElem?_drop, hdrop,
        ← List.getD_eq_getElem?_getD]
      exact ⟨fun h => ⟨h, hn⟩, fun h => h.1⟩

/-- **No residue** behind a message exactly when no earlier message was longer. -/
theorem residue_eq_nil_iff (pre : List Message) (m : Message) :
    residue (bufferAfter pre) m = [] ↔ ∀ m' ∈ pre, m'.bytes.length ≤ m.bytes.length := by
  rw [residue, cString_eq_nil_iff, ← bufferAfter_getD, List.getD_eq_getElem?_getD,
    List.getElem?_drop, add_zero, ← List.getD_eq_getElem?_getD]

/-! ## Parses -/

theorem deliver_uart1RxBuffer (f : Firmware) (m : Message) :
    (deliver strtof beyond f m).uart1RxBuffer = rxWrite m.bytes f.uart1RxBuffer := by
  simp [deliver, firmwareStep, usart1IRQHandler]

theorem deliver_params (f : Firmware) (m : Message) (h : Terminated f.uart1RxBuffer) :
    (deliver strtof beyond f m).params =
      parseAndSetPid strtof (m.bytes ++ residue f.uart1RxBuffer m) f.params.1 f.params.2 := by
  rw [← h.cString_rxWrite beyond m]
  simp [deliver, firmwareStep, usart1IRQHandler, step, mainParse, Firmware.params]

/-- The firmware, seen through its buffer and its staged sets. -/
theorem deliver_run (b : BootInputs) (msgs : List Message) :
    (run (deliver strtof beyond) (firmwareBoot b) msgs).params =
      (run (parseWithResidue strtof) (List.replicate RX_BUFFER_SIZE 0,
        (pidParamsInit, pidParamsInit)) msgs).2 := by
  have hinv : ∀ (f : Firmware) (m : Message), Terminated f.uart1RxBuffer →
      Terminated (deliver strtof beyond f m).uart1RxBuffer := by
    intro f m hf
    rw [deliver_uart1RxBuffer]
    exact hf.rxWrite m
  have h := run_image (fun f : Firmware => Terminated f.uart1RxBuffer)
    (fun f => (f.uart1RxBuffer, f.params)) (parseWithResidue strtof) hinv
    (fun f m hf => Prod.ext (deliver_uart1RxBuffer strtof beyond f m)
      (deliver_params strtof beyond f m hf))
    msgs (firmwareBoot b) terminated_boot
  exact congrArg Prod.snd h

theorem parseWithResidue_buffer (msgs : List Message)
    (r : List UInt8 × (PIDParams ℚ × PIDParams ℚ)) :
    (run (parseWithResidue strtof) r msgs).1 =
      run (fun buf m => rxWrite m.bytes buf) r.1 msgs :=
  run_image (fun _ => True) Prod.fst (fun buf (m : Message) => rxWrite m.bytes buf)
    (fun _ _ _ => trivial) (fun _ _ _ => rfl) msgs r trivial

/-- A parse sets the parameter of its message to the converted text, with what is behind it,
and no other. -/
theorem get_parse (m : Message) (rest : List UInt8) (ps : PIDParams ℚ × PIDParams ℚ) (g : Motor)
    (q : Param) [Decidable (m.Sets g q)] :
    q.get (paramsOf g (parseAndSetPid strtof (m.bytes ++ rest) ps.1 ps.2)) =
      if m.Sets g q then q.convert strtof (m.text ++ rest) else q.get (paramsOf g ps) := by
  rw [parseAndSetPid_routed (m.routes.append rest)]
  by_cases h : m.Sets g q
  · rw [if_pos h, if_pos ⟨h.1.symm, h.2.symm⟩, h.2]
  · rw [if_neg h, if_neg fun hgq => h ⟨hgq.1.symm, hgq.2.symm⟩]

instance (m : Message) (g : Motor) (q : Param) : Decidable (m.Sets g q) :=
  inferInstanceAs (Decidable (_ ∧ _))

theorem get_parseAlone (m : Message) (ps : PIDParams ℚ × PIDParams ℚ) (g : Motor) (q : Param) :
    q.get (paramsOf g (parseAlone strtof ps m)) =
      if m.Sets g q then q.convert strtof m.text else q.get (paramsOf g ps) := by
  have h := get_parse strtof m [] ps g q
  rwa [List.append_nil, List.append_nil] at h

theorem get_parseWithResidue (m : Message) (r : List UInt8 × (PIDParams ℚ × PIDParams ℚ))
    (g : Motor) (q : Param) :
    q.get (paramsOf g (parseWithResidue strtof r m).2) =
      if m.Sets g q then q.convert strtof (m.text ++ residue r.1 m)
      else q.get (paramsOf g r.2) :=
  get_parse strtof m (residue r.1 m) r.2 g q

/-! ## What a run leaves in a parameter -/

variable (g : Motor) (q : Param)

theorem parseWithResidue_other (r : List UInt8 × (PIDParams ℚ × PIDParams ℚ)) (m : Message)
    (h : ¬m.Sets g q) :
    q.get (paramsOf g (parseWithResidue strtof r m).2) = q.get (paramsOf g r.2) := by
  rw [get_parseWithResidue, if_neg h]

theorem parseAlone_other (ps : PIDParams ℚ × PIDParams ℚ) (m : Message) (h : ¬m.Sets g q) :
    q.get (paramsOf g (parseAlone strtof ps m)) = q.get (paramsOf g ps) := by
  rw [get_parseAlone, if_neg h]

/-- The last message for a parameter, with what the earlier ones left behind it. -/
theorem parseWithResidue_last (ps : PIDParams ℚ × PIDParams ℚ) (pre : List Message) (m : Message)
    (post : List Message) (hm : m.Sets g q) (hpost : ∀ m' ∈ post, ¬m'.Sets g q) :
    q.get (paramsOf g (run (parseWithResidue strtof) (List.replicate RX_BUFFER_SIZE 0, ps)
        (pre ++ m :: post)).2) = q.convert strtof (m.text ++ residue (bufferAfter pre) m) := by
  rw [run_last_write (o := fun r : List UInt8 × _ => q.get (paramsOf g r.2))
      (parseWithResidue_other strtof g q) pre m post _ hpost, get_parseWithResidue, if_pos hm,
    parseWithResidue_buffer]
  rfl

theorem parseAlone_last (ps : PIDParams ℚ × PIDParams ℚ) (pre : List Message) (m : Message)
    (post : List Message) (hm : m.Sets g q) (hpost : ∀ m' ∈ post, ¬m'.Sets g q) :
    q.get (paramsOf g (run (parseAlone strtof) ps (pre ++ m :: post))) =
      q.convert strtof m.text := by
  rw [run_last_write (o := fun ps => q.get (paramsOf g ps)) (parseAlone_other strtof g q)
      pre m post ps hpost, get_parseAlone, if_pos hm]

end Runs

/-! ## Result -/

/-- The residue behind the last message for each parameter does not change its number. -/
def Harmless (strtof : List UInt8 → ℚ) (msgs : List Message) : Prop :=
  ∀ pre m post, msgs = pre ++ m :: post → (∀ m' ∈ post, ¬m'.Sets m.group m.param) →
    m.param.convert strtof (m.text ++ residue (bufferAfter pre) m) = m.param.convert strtof m.text

theorem Harmless.alone {strtof : List UInt8 → ℚ} {msgs : List Message} (h : Harmless strtof msgs)
    (beyond : List UInt8) (b : BootInputs) :
    (run (deliver strtof beyond) (firmwareBoot b) msgs).params =
      run (parseAlone strtof) (pidParamsInit, pidParamsInit) msgs := by
  rw [deliver_run]
  generalize ((pidParamsInit, pidParamsInit) : PIDParams ℚ × PIDParams ℚ) = ps
  have hget (g : Motor) (q : Param) :
      q.get (paramsOf g (run (parseWithResidue strtof)
          (List.replicate RX_BUFFER_SIZE 0, ps) msgs).2) =
        q.get (paramsOf g (run (parseAlone strtof) ps msgs)) := by
    rcases unwritten_or_exists_last (fun m : Message => m.Sets g q) msgs with
      hno | ⟨pre, m, post, rfl, hm, hpost⟩
    · rw [run_unwritten (o := fun r : List UInt8 × _ => q.get (paramsOf g r.2))
          (parseWithResidue_other strtof g q) msgs _ hno,
        run_unwritten (o := fun ps => q.get (paramsOf g ps)) (parseAlone_other strtof g q)
          msgs ps hno]
    · rw [parseWithResidue_last strtof g q ps pre m post hm hpost,
        parseAlone_last strtof g q ps pre m post hm hpost]
      obtain ⟨rfl, rfl⟩ := hm
      exact h pre m post rfl hpost
  exact Prod.ext (Param.ext_get (hget .M1)) (Param.ext_get (hget .M2))

/-- **Residue.**  After any messages since boot, the staged sets are those of the messages
parsed alone if and only if every message that is the last one for its parameter converts to
the same number with the residue behind it. -/
theorem messages_alone_iff (strtof : List UInt8 → ℚ) (beyond : List UInt8) (b : BootInputs)
    (msgs : List Message) :
    (run (deliver strtof beyond) (firmwareBoot b) msgs).params =
        run (parseAlone strtof) (pidParamsInit, pidParamsInit) msgs ↔
      ∀ pre m post, msgs = pre ++ m :: post → (∀ m' ∈ post, ¬m'.Sets m.group m.param) →
        m.param.convert strtof (m.text ++ residue (bufferAfter pre) m) =
          m.param.convert strtof m.text := by
  constructor
  · rintro h pre m post rfl hpost
    rw [deliver_run] at h
    rw [← parseWithResidue_last strtof m.group m.param (pidParamsInit, pidParamsInit) pre m post
        ⟨rfl, rfl⟩ hpost, h, parseAlone_last strtof m.group m.param _ pre m post ⟨rfl, rfl⟩ hpost]
  · intro h
    exact Harmless.alone h beyond b

/-- A short command after a longer one: the end of the first becomes the decimals of the
second. -/
theorem messages_not_alone :
    ∃ m m' : Message, m.bytes = cstr "Id_2:1.234" ∧ m'.bytes = cstr "Iq_1:5" ∧
      (run (deliver finiteStrtof []) (firmwareBoot (.const (.both ⟨0, 0⟩ 0))) [m, m']).params.1.Iq
        = 5.234 ∧
      (run (parseAlone finiteStrtof) (pidParamsInit, pidParamsInit) [m, m']).1.Iq = 5 :=
  ⟨⟨cstr "Id_2:1.234", .M2, .Id, cstr "1.234", by decide, by decide, routes_iff.mpr (by decide)⟩,
    ⟨cstr "Iq_1:5", .M1, .Iq, cstr "5", by decide, by decide, routes_iff.mpr (by decide)⟩,
    rfl, rfl, by decide +kernel, by decide +kernel⟩

/-- Messages none of which is shorter than an earlier one are read alone. -/
theorem messages_alone_of_not_shorter (strtof : List UInt8 → ℚ) (beyond : List UInt8)
    (b : BootInputs) (msgs : List Message)
    (h : msgs.Pairwise fun m m' => m.bytes.length ≤ m'.bytes.length) :
    (run (deliver strtof beyond) (firmwareBoot b) msgs).params =
      run (parseAlone strtof) (pidParamsInit, pidParamsInit) msgs := by
  refine Harmless.alone ?_ beyond b
  rintro pre m post rfl _
  have hpre : ∀ m' ∈ pre, m'.bytes.length ≤ m.bytes.length := fun m' hm' =>
    (List.pairwise_append.mp h).2.2 m' hm' m List.mem_cons_self
  rw [(residue_eq_nil_iff pre m).mpr hpre, List.append_nil]

end At32Foc
