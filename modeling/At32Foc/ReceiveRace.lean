import At32Foc.Reception

/-!
# Receiving while parsing

The host, the line with its RX DMA, the idle interrupt and the main loop as parties of one
step function on the receive buffer (`rxStep`); an event that its party cannot perform
changes nothing.  The host sends messages byte by byte.  When the line goes idle the
interrupt is requested, and it runs later: until then the bytes of the next message follow
those of the last one into the buffer.  The main loop tests `rx1_flag`, reads bytes of the
buffer one by one while it parses, returns and clears the flag, each in a step of its own,
so the DMA may store bytes under a parse, and the flag may be cleared for a message that has
not been looked at.

* `Orderly`: how far the messages and the calls have come on the line and at each point of
  the main loop.
* `rxStep_orderly`: kept by every step before which the host has waited (`Admitted`).
* `run_messages`: the completed messages are the first ones that the host has sent.
* `each_message_read_once`: in such runs the calls read the messages, one each.
-/

namespace At32Foc

open ControlLib

/-! ## Algorithm -/

/-- Where the main loop is: before the test of the flag, inside the parse, or between the
parse and the clearing of the flag. -/
inductive Pc where
  | test
  | parse
  | clear
  deriving Repr, DecidableEq

structure Rx where
  /-- DMA2 channel 1. -/
  ch : DmaChannel
  uart1RxBuffer : List UInt8
  /-- A byte has arrived since the line was last idle. -/
  heard : Bool
  /-- `USART_IDLEF_FLAG`, the request of `USART1_IRQHandler`. -/
  idlef : Bool
  rx1Flag : UInt8
  pc : Pc
  /-- What the host has sent of its message. -/
  sending : List UInt8
  /-- The messages the host has ended since the line was last idle, those whose interrupt is
  requested, and those whose interrupt has run: the completed ones. -/
  ended : List (List UInt8)
  idled : List (List UInt8)
  done : List (List UInt8)
  /-- Index and value of the bytes the call in progress has read, and the calls before. -/
  reads : List (ℕ × UInt8)
  calls : List (List (ℕ × UInt8))

inductive RxEvent where
  /-- A byte of the host's message arrives, the last one or not, and the DMA stores it. -/
  | byte (b : UInt8) (last : Bool)
  /-- The line goes idle. -/
  | idle
  /-- `USART1_IRQHandler` runs, between two bytes. -/
  | irq
  | test
  /-- The parser reads a byte of the buffer. -/
  | look (i : ℕ)
  | ret
  | clear
  deriving DecidableEq

/-- String functions read a byte only after the ones before it, and none after a NUL. -/
def mayRead (reads : List (ℕ × UInt8)) (i : ℕ) : Bool :=
  i == 0 || reads.any fun r => r.1 + 1 == i && r.2 != 0

def rxStep (s : Rx) : RxEvent → Rx
  | .byte b last =>
    let (ch, buf) := DmaChannel.store (s.ch, s.uart1RxBuffer) b
    let s := { s with ch := ch, uart1RxBuffer := buf, heard := true }
    if last then { s with sending := [], ended := s.ended ++ [s.sending ++ [b]] }
    else { s with sending := s.sending ++ [b] }
  | .idle =>
    if s.heard then
      { s with heard := false, idlef := true, ended := [], idled := s.idled ++ s.ended }
    else s
  | .irq =>
    if s.idlef then
      { s with ch := rxChannel, rx1Flag := 1, idlef := false, idled := [],
               done := s.done ++ s.idled }
    else s
  | .test => if s.pc = .test ∧ s.rx1Flag = 1 then { s with pc := .parse, reads := [] } else s
  | .look i =>
    match s.uart1RxBuffer[i]? with
    | none => s
    | some b =>
      if s.pc = .parse ∧ mayRead s.reads i then { s with reads := s.reads ++ [(i, b)] } else s
  | .ret =>
    if s.pc = .parse ∧ s.reads ≠ [] then { s with pc := .clear, calls := s.calls ++ [s.reads] }
    else s
  | .clear => if s.pc = .clear then { s with pc := .test, rx1Flag := 0 } else s

def rxBoot : Rx where
  ch := rxChannel
  uart1RxBuffer := List.replicate RX_BUFFER_SIZE 0
  heard := false
  idlef := false
  rx1Flag := 0
  pc := .test
  sending := []
  ended := []
  idled := []
  done := []
  reads := []
  calls := []

/-- The messages the host has sent in full, and what it has sent of the next. -/
def hostSend (h : List (List UInt8) × List UInt8) : RxEvent → List (List UInt8) × List UInt8
  | .byte b last => if last then (h.1 ++ [h.2 ++ [b]], []) else (h.1, h.2 ++ [b])
  | _ => h

def hostMessages (evs : List RxEvent) : List (List UInt8) := (run hostSend ([], []) evs).1

/-! ## What calls should read -/

/-- All bytes read are bytes of the message, as a string with its NUL. -/
def ReadsOf (msg : List UInt8) (reads : List (ℕ × UInt8)) : Prop :=
  ∀ r ∈ reads, (cString msg ++ [0])[r.1]? = some r.2

/-- The buffer holds the string of the message. -/
def Holds (buf msg : List UInt8) : Prop := 0 ∈ buf ∧ cString buf = cString msg

/-- A byte that may be read next is the one of the message. -/
theorem ReadsOf.look {buf msg : List UInt8} {reads : List (ℕ × UInt8)} (h : ReadsOf msg reads)
    (hbuf : Holds buf msg) {i : ℕ} {b : UInt8} (hi : mayRead reads i = true)
    (hb : buf[i]? = some b) : ReadsOf msg (reads ++ [(i, b)]) := by
  obtain ⟨rest, hrest⟩ := exists_eq_cString_append hbuf.1
  rw [hbuf.2] at hrest
  have hle : i ≤ (cString msg).length := by
    simp only [mayRead, Bool.or_eq_true, beq_iff_eq, List.any_eq_true, Bool.and_eq_true,
      bne_iff_ne, ne_eq] at hi
    rcases hi with rfl | ⟨r, hr, rfl, hne⟩
    · exact Nat.zero_le _
    · -- the byte before is not the NUL, so it is inside the string
      by_contra hcon
      have hr' := h r hr
      rcases Nat.lt_or_ge r.1 (cString msg ++ [0]).length with hlt | hge
      · have heq : r.1 = (cString msg).length := by
          rw [List.length_append, List.length_singleton] at hlt
          omega
        rw [heq, List.getElem?_append_right le_rfl, Nat.sub_self] at hr'
        exact hne (Option.some.inj hr').symm
      · rw [List.getElem?_eq_none hge] at hr'
        cases hr'
  rintro r hr
  rcases List.mem_append.mp hr with hr | hr
  · exact h r hr
  · obtain rfl := List.mem_singleton.mp hr
    rw [← hb, hrest]
    rcases Nat.lt_or_ge i (cString msg).length with hlt | hge
    · rw [List.getElem?_append_left hlt, List.getElem?_append_left hlt]
    · obtain rfl : i = (cString msg).length := by omega
      rw [List.getElem?_append_right le_rfl, List.getElem?_append_right le_rfl, Nat.sub_self]
      rfl

/-- The message fits, and its string ends in the buffer. -/
def Ends (buf msg : List UInt8) : Prop :=
  msg.length ≤ RX_BUFFER_SIZE ∧ (0 ∈ msg ∨ buf[msg.length]? = some 0)

/-- Such a message is held once it is stored. -/
theorem holds_rxWrite {msg old : List UInt8} (hold : old.length = RX_BUFFER_SIZE)
    (h : Ends (rxWrite msg old) msg) : Holds (rxWrite msg old) msg := by
  obtain ⟨hlen, hend⟩ := h
  rw [rxWrite_of_length_le hold hlen] at hend ⊢
  by_cases h0 : (0 : UInt8) ∈ msg
  · exact ⟨List.mem_append_left _ h0, cString_append h0 _⟩
  · have hnext := hend.resolve_left h0
    rw [List.getElem?_append_right le_rfl, Nat.sub_self] at hnext
    obtain ⟨rest, hrest⟩ : ∃ rest, old.drop msg.length = 0 :: rest := by
      cases hd : old.drop msg.length with
      | nil =>
        rw [hd] at hnext
        cases hnext
      | cons b rest =>
        rw [hd] at hnext
        obtain rfl := Option.some.inj hnext
        exact ⟨rest, rfl⟩
    rw [hrest]
    refine ⟨by simp, ?_⟩
    rw [cString_append_of_notMem h0, cString_of_notMem h0]
    simp [cString]

/-! ## The invariant -/

/-- What has arrived since the DMA was re-armed: the message the host is sending, one that is
ended, or one whose interrupt is requested. -/
inductive RxLine (s : Rx) : List UInt8 → Prop where
  | sending (hended : s.ended = []) (hidled : s.idled = []) (hidlef : s.idlef = false)
      (hheard : s.heard = true → s.sending ≠ []) : RxLine s s.sending
  | ended (msg : List UInt8) (hsending : s.sending = []) (hended : s.ended = [msg])
      (hidled : s.idled = []) (hidlef : s.idlef = false) : RxLine s msg
  | requested (msg : List UInt8) (hsending : s.sending = []) (hended : s.ended = [])
      (hidled : s.idled = [msg]) (hidlef : s.idlef = true) (hheard : s.heard = false) :
      RxLine s msg

/-- A completed message waits for its call, or is being read by it; the calls before have
read the messages before. -/
def Pending (s : Rx) (reads : List (ℕ × UInt8)) : Prop :=
  s.rx1Flag = 1 ∧ ∃ before msg, s.done = before ++ [msg] ∧
    List.Forall₂ ReadsOf before s.calls ∧ Holds s.uart1RxBuffer msg ∧ ReadsOf msg reads

inductive Phase (s : Rx) : Prop where
  | quiet (hpc : s.pc = .test) (hflag : s.rx1Flag = 0)
      (hcalls : List.Forall₂ ReadsOf s.done s.calls)
  | waiting (hpc : s.pc = .test) (hp : Pending s [])
  | parsing (hpc : s.pc = .parse) (hp : Pending s s.reads)
  | parsed (hpc : s.pc = .clear) (hflag : s.rx1Flag = 1)
      (hcalls : List.Forall₂ ReadsOf s.done s.calls)

/-- The DMA has stored `cur` since it was re-armed. -/
def Stored (s : Rx) (cur : List UInt8) : Prop :=
  ∃ old : List UInt8, old.length = RX_BUFFER_SIZE ∧
    (s.ch, s.uart1RxBuffer) = run DmaChannel.store (rxChannel, old) cur

structure Orderly (s : Rx) : Prop where
  line : ∃ cur, RxLine s cur ∧ Stored s cur
  phase : Phase s

/-- The host waits.  A byte arrives once the message before it is completed, so not while its
interrupt is requested, and while the flag is clear or about to be cleared; the line does not
go idle within a message; and the interrupt runs with the flag clear, for a message with its
end in the buffer. -/
def Admitted (s : Rx) : RxEvent → Prop
  | .byte _ _ => s.ended = [] ∧ s.idlef = false ∧ (s.rx1Flag = 0 ∨ s.pc = .clear)
  | .idle => s.sending = []
  | .irq => s.idlef = false ∨ s.rx1Flag = 0 ∧ ∀ msg ∈ s.idled, Ends s.uart1RxBuffer msg
  | .test | .look _ | .ret | .clear => True

theorem rxBoot_orderly : Orderly rxBoot :=
  ⟨⟨[], .sending rfl rfl rfl nofun, List.replicate RX_BUFFER_SIZE 0, rfl, rfl⟩,
    .quiet rfl rfl .nil⟩

/-! ## Steps -/

section Steps

variable {s : Rx}

/-- What is known at each point of the main loop. -/
theorem Phase.of_test (h : Phase s) (hpc : s.pc = .test) (hflag : s.rx1Flag = 1) :
    Pending s [] := by
  cases h with
  | quiet _ h0 _ => rw [hflag] at h0; cases h0
  | waiting _ hp => exact hp
  | parsing h' _ => rw [hpc] at h'; cases h'
  | parsed h' _ _ => rw [hpc] at h'; cases h'

theorem Phase.of_parse (h : Phase s) (hpc : s.pc = .parse) : Pending s s.reads := by
  cases h with
  | quiet h' _ _ => rw [hpc] at h'; cases h'
  | waiting h' _ => rw [hpc] at h'; cases h'
  | parsing _ hp => exact hp
  | parsed h' _ _ => rw [hpc] at h'; cases h'

theorem Phase.of_clear (h : Phase s) (hpc : s.pc = .clear) :
    s.rx1Flag = 1 ∧ List.Forall₂ ReadsOf s.done s.calls := by
  cases h with
  | quiet h' _ _ => rw [hpc] at h'; cases h'
  | waiting h' _ => rw [hpc] at h'; cases h'
  | parsing h' _ => rw [hpc] at h'; cases h'
  | parsed _ hflag hcalls => exact ⟨hflag, hcalls⟩

/-- With the flag clear, the calls have read all messages. -/
theorem Phase.of_flag (h : Phase s) (hflag : s.rx1Flag = 0) :
    s.pc = .test ∧ List.Forall₂ ReadsOf s.done s.calls := by
  cases h with
  | quiet hpc _ hcalls => exact ⟨hpc, hcalls⟩
  | waiting _ hp => rw [hp.1] at hflag; cases hflag
  | parsing _ hp => rw [hp.1] at hflag; cases hflag
  | parsed _ h' _ => rw [h'] at hflag; cases hflag

theorem Orderly.byte (h : Orderly s) (b : UInt8) (last : Bool)
    (hc : Admitted s (.byte b last)) : Orderly (rxStep s (.byte b last)) := by
  obtain ⟨hended, hidlef, hflag⟩ := hc
  obtain ⟨cur, hline, old, hold, hrun⟩ := h.line
  have hphase : Phase (rxStep s (.byte b last)) := by
    simp only [rxStep]
    rcases hflag with hflag | hpc
    · obtain ⟨hpc, hcalls⟩ := h.phase.of_flag hflag
      split_ifs <;> exact .quiet hpc hflag hcalls
    · obtain ⟨hflag, hcalls⟩ := h.phase.of_clear hpc
      split_ifs <;> exact .parsed hpc hflag hcalls
  refine ⟨⟨cur ++ [b], ?_, old, hold, ?_⟩, hphase⟩
  · cases hline with
    | sending _ hidled _ _ =>
      simp only [rxStep]
      split_ifs
      · exact .ended _ rfl (by rw [hended]; rfl) hidled hidlef
      · exact .sending hended hidled hidlef fun _ => by simp
    | ended _ _ h' _ _ => rw [hended] at h'; cases h'
    | requested _ _ _ _ h' _ => rw [hidlef] at h'; cases h'
  · simp only [rxStep, run_append, run_cons, run_nil, ← hrun]
    split_ifs <;> rfl

theorem Orderly.idle (h : Orderly s) (hc : Admitted s .idle) : Orderly (rxStep s .idle) := by
  rw [rxStep]
  split_ifs with hheard
  · obtain ⟨cur, hline, hstored⟩ := h.line
    refine ⟨⟨cur, ?_, hstored⟩, ?_⟩
    · cases hline with
      | sending _ _ _ h' => exact absurd hc (h' hheard)
      | ended _ hsending hended hidled _ =>
        exact .requested cur hsending rfl (by rw [hidled, hended]; rfl) rfl rfl
      | requested _ _ _ _ _ h' => rw [hheard] at h'; cases h'
    · cases h.phase with
      | quiet hpc hflag hcalls => exact .quiet hpc hflag hcalls
      | waiting hpc hp => exact .waiting hpc hp
      | parsing hpc hp => exact .parsing hpc hp
      | parsed hpc hflag hcalls => exact .parsed hpc hflag hcalls
  · exact h

theorem Orderly.irq (h : Orderly s) (hc : Admitted s .irq) : Orderly (rxStep s .irq) := by
  rw [rxStep]
  split_ifs with hidlef
  · obtain ⟨hflag, hends⟩ := hc.resolve_left (by rw [hidlef]; exact Bool.noConfusion)
    obtain ⟨cur, hline, old, hold, hrun⟩ := h.line
    cases hline with
    | sending _ _ h' _ => rw [hidlef] at h'; cases h'
    | ended _ _ _ _ h' => rw [hidlef] at h'; cases h'
    | requested _ hsending hended hidled _ hheard =>
      have hbuf : s.uart1RxBuffer = rxWrite cur old := congrArg Prod.snd hrun
      have hholds : Holds s.uart1RxBuffer cur := by
        have hend := hends cur (by rw [hidled]; exact List.mem_singleton_self _)
        rw [hbuf] at hend ⊢
        exact holds_rxWrite hold hend
      obtain ⟨hpc, hcalls⟩ := h.phase.of_flag hflag
      refine ⟨⟨[], ?_, s.uart1RxBuffer, by rw [hbuf, rxWrite_length, hold], rfl⟩,
        .waiting hpc ⟨rfl, s.done, cur, by rw [hidled], hcalls, hholds, nofun⟩⟩
      rw [← hsending]
      exact .sending hended rfl rfl fun h' => by rw [hheard] at h'; cases h'
  · exact h

/-- The main loop does not touch the line. -/
theorem Orderly.mainLoop (h : Orderly s) {pc : Pc} {rx1Flag : UInt8} {reads : List (ℕ × UInt8)}
    {calls : List (List (ℕ × UInt8))} :
    let t := { s with pc := pc, rx1Flag := rx1Flag, reads := reads, calls := calls }
    ∃ cur, RxLine t cur ∧ Stored t cur := by
  obtain ⟨cur, hline, hstored⟩ := h.line
  refine ⟨cur, ?_, hstored⟩
  cases hline with
  | sending h1 h2 h3 h4 => exact .sending h1 h2 h3 h4
  | ended _ h1 h2 h3 h4 => exact .ended cur h1 h2 h3 h4
  | requested _ h1 h2 h3 h4 h5 => exact .requested cur h1 h2 h3 h4 h5

theorem Orderly.test (h : Orderly s) : Orderly (rxStep s .test) := by
  rw [rxStep]
  split_ifs with htest
  · exact ⟨h.mainLoop, .parsing rfl (h.phase.of_test htest.1 htest.2)⟩
  · exact h

theorem Orderly.look (h : Orderly s) (i : ℕ) : Orderly (rxStep s (.look i)) := by
  simp only [rxStep]
  split
  · exact h
  next b hb =>
  split_ifs with hlook
  · obtain ⟨hflag, before, msg, hdone, hcalls, hholds, hreads⟩ := h.phase.of_parse hlook.1
    exact ⟨h.mainLoop, .parsing hlook.1
      ⟨hflag, before, msg, hdone, hcalls, hholds, hreads.look hholds hlook.2 hb⟩⟩
  · exact h

theorem Orderly.ret (h : Orderly s) : Orderly (rxStep s .ret) := by
  rw [rxStep]
  split_ifs with hret
  · obtain ⟨hflag, before, msg, hdone, hcalls, -, hreads⟩ := h.phase.of_parse hret.1
    refine ⟨h.mainLoop, .parsed rfl hflag ?_⟩
    rw [hdone]
    exact List.rel_append hcalls (.cons hreads .nil)
  · exact h

theorem Orderly.clear (h : Orderly s) : Orderly (rxStep s .clear) := by
  rw [rxStep]
  split_ifs with hclear
  · exact ⟨h.mainLoop, .quiet rfl rfl (h.phase.of_clear hclear).2⟩
  · exact h

end Steps

theorem rxStep_orderly (s : Rx) (e : RxEvent) (h : Orderly s) (hc : Admitted s e) :
    Orderly (rxStep s e) := by
  cases e with
  | byte b last => exact h.byte b last hc
  | idle => exact h.idle hc
  | irq => exact h.irq hc
  | test => exact h.test
  | look i => exact h.look i
  | ret => exact h.ret
  | clear => exact h.clear

/-! ## The host's messages -/

/-- What the state keeps of the host's messages. -/
def Rx.host (s : Rx) : List (List UInt8) × List UInt8 :=
  (s.done ++ s.idled ++ s.ended, s.sending)

theorem rxStep_host (s : Rx) (e : RxEvent) : (rxStep s e).host = hostSend s.host e := by
  cases e with
  | byte b last =>
    simp only [rxStep, hostSend]
    split_ifs
    · simp [Rx.host]
    · rfl
  | idle =>
    simp only [rxStep, hostSend]
    split_ifs <;> simp [Rx.host]
  | irq =>
    simp only [rxStep, hostSend]
    split_ifs <;> simp [Rx.host]
  | look i =>
    simp only [rxStep, hostSend]
    split
    · rfl
    · split_ifs <;> rfl
  | test | ret | clear =>
    simp only [rxStep, hostSend]
    split_ifs <;> rfl

/-- In every run, the messages on their way and the completed ones are the host's. -/
theorem run_messages (evs : List RxEvent) :
    let s := run rxStep rxBoot evs
    s.done ++ s.idled ++ s.ended = hostMessages evs := by
  have hstep : ∀ s e, True → (rxStep s e).host = hostSend s.host e := fun s e _ => rxStep_host s e
  exact congrArg Prod.fst
    (run_image (fun _ => True) Rx.host hostSend (fun _ _ _ => trivial) hstep evs rxBoot trivial)

/-! ## Result -/

theorem reads_message {done : List (List UInt8)} {calls : List (List (ℕ × UInt8))}
    (h : List.Forall₂ ReadsOf done calls) (k : ℕ) (reads : List (ℕ × UInt8))
    (hk : calls[k]? = some reads) : ∃ msg, done[k]? = some msg ∧ ReadsOf msg reads := by
  obtain ⟨hlt, rfl⟩ := List.getElem?_eq_some_iff.mp hk
  have hlt' : k < done.length := by
    rw [h.length_eq]
    exact hlt
  exact ⟨done[k], List.getElem?_eq_getElem hlt', h.get hlt' hlt⟩

theorem Pending.reads_message {s : Rx} {current : List (ℕ × UInt8)} (h : Pending s current)
    (k : ℕ) (reads : List (ℕ × UInt8)) (hk : s.calls[k]? = some reads) :
    ∃ msg, s.done[k]? = some msg ∧ ReadsOf msg reads := by
  obtain ⟨-, before, last, hdone, hcalls, -, -⟩ := h
  obtain ⟨msg, hmsg, hr⟩ := At32Foc.reads_message hcalls k reads hk
  obtain ⟨hlt, -⟩ := List.getElem?_eq_some_iff.mp hmsg
  exact ⟨msg, by rw [hdone, List.getElem?_append_left hlt, hmsg], hr⟩

/-- **One call for each message.**  In every run in which the host waits, the completed messages
are the first ones of the host, and the calls read them, in order and one each; while a call
runs the buffer holds its message; and with the flag clear no message is left unparsed. -/
theorem each_message_read_once (evs : List RxEvent) (h : AllSteps Admitted rxStep rxBoot evs) :
    let s := run rxStep rxBoot evs
    s.done <+: hostMessages evs ∧
    (∀ (k : ℕ) reads, s.calls[k]? = some reads →
      ∃ msg, s.done[k]? = some msg ∧ ReadsOf msg reads) ∧
    (s.pc = .parse → ∃ msg, s.done[s.calls.length]? = some msg ∧ ReadsOf msg s.reads ∧
      Holds s.uart1RxBuffer msg) ∧
    (s.rx1Flag = 0 → s.pc ≠ .parse → s.done.length = s.calls.length) := by
  intro s
  have ho : Orderly s := run_invariant_of rxStep_orderly evs rxBoot rxBoot_orderly h
  refine ⟨⟨s.idled ++ s.ended, by rw [← List.append_assoc, run_messages]⟩, ?_, fun hpc => ?_,
    fun hflag _ => (ho.phase.of_flag hflag).2.length_eq⟩
  · cases ho.phase with
    | quiet _ _ hcalls => exact reads_message hcalls
    | waiting _ hp => exact hp.reads_message
    | parsing _ hp => exact hp.reads_message
    | parsed _ _ hcalls => exact reads_message hcalls
  · obtain ⟨-, before, msg, hdone, hcalls, hholds, hreads⟩ := ho.phase.of_parse hpc
    refine ⟨msg, ?_, hreads, hholds⟩
    rw [hdone, ← hcalls.length_eq, List.getElem?_append_right le_rfl, Nat.sub_self]
    rfl

instance (buf msg : List UInt8) : Decidable (Ends buf msg) := inferInstanceAs (Decidable (_ ∧ _))

instance (s : Rx) : ∀ e, Decidable (Admitted s e)
  | .byte _ _ => inferInstanceAs (Decidable (_ ∧ _))
  | .idle => inferInstanceAs (Decidable (_ = _))
  | .irq => inferInstanceAs (Decidable (_ ∨ _))
  | .test | .look _ | .ret | .clear => .isTrue trivial

/-- The events of a message on the line, and those of a call that looks at `is`. -/
def sendEvents : List UInt8 → List RxEvent
  | [] => []
  | b :: msg => .byte b msg.isEmpty :: sendEvents msg

def lookEvents (is : List ℕ) : List RxEvent := is.map .look

/-- A command, its parse, and the arrival of the next. -/
theorem each_message_read_once_two :
    let evs := sendEvents (cstr "Id_1:5" ++ [0]) ++ [.idle, .irq, .test] ++
      lookEvents [0, 1, 2, 3, 4, 0, 1, 2, 3, 5, 6] ++ [.ret, .clear] ++
      sendEvents (cstr "Iq_2:7" ++ [0]) ++ [.idle, .irq, .test] ++ lookEvents [0, 1, 2]
    let s := run rxStep rxBoot evs
    s.done <+: hostMessages evs ∧
    (∀ (k : ℕ) reads, s.calls[k]? = some reads →
      ∃ msg, s.done[k]? = some msg ∧ ReadsOf msg reads) ∧
    (s.pc = .parse → ∃ msg, s.done[s.calls.length]? = some msg ∧ ReadsOf msg s.reads ∧
      Holds s.uart1RxBuffer msg) ∧
    (s.rx1Flag = 0 → s.pc ≠ .parse → s.done.length = s.calls.length) :=
  each_message_read_once _ (by decide +kernel)

/-- A message that arrives under a parse, between the search for `:` and the copy of the name. -/
def tornEvents : List RxEvent :=
  sendEvents (cstr "Id_1:5" ++ [0]) ++ [.idle, .irq, .test] ++ lookEvents [0, 1, 2, 3, 4] ++
    sendEvents (cstr "Iq_2:7" ++ [0]) ++ lookEvents [0, 1, 2, 3, 5, 6, 5, 6] ++ [.ret]

/-- A message that completes between a parse and the clearing of the flag. -/
def lostEvents : List RxEvent :=
  sendEvents (cstr "Id_1:5" ++ [0]) ++ [.idle, .irq, .test] ++
    lookEvents [0, 1, 2, 3, 4, 0, 1, 2, 3, 5, 6, 5, 6] ++ [.ret] ++
    sendEvents (cstr "Iq_2:7" ++ [0]) ++ [.idle, .irq, .clear]

/-- An interrupt that runs after the next message. -/
def lateEvents : List RxEvent :=
  sendEvents (cstr "Id_1:5") ++ [.idle] ++ sendEvents (cstr "Iq_2:7" ++ [0]) ++
    [.idle, .irq, .test] ++ lookEvents [0, 1, 2, 3, 4, 5, 6, 7, 8] ++ [.ret]

/-- The first call has read no message at all; the second message is never parsed; and the
call of a late interrupt has read none of the two. -/
theorem message_torn_or_lost :
    (∃ reads ∈ (run rxStep rxBoot tornEvents).calls, ∀ msg, ¬ReadsOf msg reads) ∧
    ((run rxStep rxBoot lostEvents).done.length = 2 ∧
      (run rxStep rxBoot lostEvents).calls.length = 1 ∧
      (run rxStep rxBoot lostEvents).rx1Flag = 0 ∧
      (run rxStep rxBoot lostEvents).pc = .test) ∧
    (∃ reads ∈ (run rxStep rxBoot lateEvents).calls,
      ∀ msg ∈ (run rxStep rxBoot lateEvents).done, ¬ReadsOf msg reads) := by
  refine ⟨?_, by decide +kernel, ?_⟩
  · have hcalls : (run rxStep rxBoot tornEvents).calls =
        [[(0, 73), (1, 100), (2, 95), (3, 49), (4, 58), (0, 73), (1, 113), (2, 95), (3, 50),
          (5, 55), (6, 0), (5, 55), (6, 0)]] := by
      decide +kernel
    refine ⟨_, by rw [hcalls]; exact List.mem_singleton_self _, fun msg h => ?_⟩
    -- the second byte, before and after
    have h1 := h (1, 100) (by simp)
    have h2 := h (1, 113) (by simp)
    rw [h1] at h2
    cases h2
  · have hcalls : (run rxStep rxBoot lateEvents).calls =
        [[(0, 73), (1, 100), (2, 95), (3, 49), (4, 58), (5, 53), (6, 73), (7, 113), (8, 95)]] := by
      decide +kernel
    have hdone : (run rxStep rxBoot lateEvents).done = [cstr "Id_1:5", cstr "Iq_2:7" ++ [0]] := by
      decide +kernel
    refine ⟨_, by rw [hcalls]; exact List.mem_singleton_self _, fun msg hmsg h => ?_⟩
    rw [hdone, List.mem_cons, List.mem_singleton] at hmsg
    rcases hmsg with rfl | rfl
    · -- it goes on where the first message ends
      exact absurd (h (6, 73) (by simp)) (by decide)
    · exact absurd (h (1, 100) (by simp)) (by decide)

end At32Foc
