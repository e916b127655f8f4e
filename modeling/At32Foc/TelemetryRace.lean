import At32Foc.Lib.Dma
import At32Foc.Telemetry

/-!
# Filling the transmit buffer while it is sent

The main loop, DMA1 channel 7 and `DMA1_Channel7_IRQHandler` as parties of one step
function on `uart1_tx_buffer` (`txStep`); an event that its party cannot perform changes
nothing.  A call writes the frame byte by byte, waits until `usart1_tx_dma_status` is not
0, and enables the channel.  The interrupt sets the status and disables the channel;
nothing sets the status back to 0, so it holds up no call after the first, and none
before it has written.

* `Clean`: while the channel is enabled the main loop is outside a call and the buffer is
  the one it was enabled with.
* `txStep_clean`: kept by every step, if calls begin with the channel disabled (`Spaced`).
* `Ordered`: a transfer goes through the buffer in order, and round it if its interrupt is
  late; `Timely`: with interrupts in time each starts at the head and ends there.
* `frames_of_single_calls`: in such runs every frame sent is what one call has left.
-/

namespace At32Foc

open ControlLib

/-! ## Algorithm -/

/-- Where the main loop is: outside a call, before it writes byte `i` of the frame of `data`,
or before the wait. -/
inductive TxPc where
  | idle
  | copy (data : List UInt32) (i : ℕ)
  | wait
  deriving Repr, DecidableEq

/-- What a transfer sends: the buffer it was enabled with, and index and value of the bytes
sent. -/
structure Transfer where
  snapshot : List UInt8
  sent : List (ℕ × UInt8)
  deriving DecidableEq

structure Tx where
  /-- DMA1 channel 7. -/
  ch : DmaChannel
  uart1TxBuffer : List UInt8
  usart1TxDmaStatus : UInt8
  pc : TxPc
  /-- The buffers the calls so far are to leave. -/
  images : List (List UInt8)
  /-- The transfer in progress, and the ones before. -/
  current : Transfer
  frames : List Transfer

/-- What a call writes to the head of the buffer. -/
def frameBytes (data : List UInt32) : List UInt8 := dataBytes data ++ frameTail

inductive TxEvent where
  /-- The main loop calls `USART1_SendFloatArray` with at most `N` floats. -/
  | call (data : { data : List UInt32 // data.length ≤ N })
  | write
  /-- The loop on the status ends, and the channel is enabled. -/
  | enable
  /-- The DMA sends a byte. -/
  | send
  | irq

def txStep (s : Tx) : TxEvent → Tx
  | .call data =>
    if s.pc = .idle then
      { s with
        pc := .copy data.val 0
        images := s.images ++ [usart1SendFloatArray data.val data.val.length s.uart1TxBuffer] }
    else s
  | .write =>
    match s.pc with
    | .copy data i =>
      if i < (frameBytes data).length then
        { s with
          uart1TxBuffer := s.uart1TxBuffer.set i ((frameBytes data).getD i 0)
          pc := .copy data (i + 1) }
      else { s with pc := .wait }
    | _ => s
  | .enable =>
    if s.pc = .wait ∧ s.usart1TxDmaStatus ≠ 0 then
      { s with
        pc := .idle
        ch := { s.ch with enabled := true }
        current := if s.ch.enabled then s.current else ⟨s.uart1TxBuffer, []⟩ }
    else s
  | .send =>
    match s.uart1TxBuffer[s.ch.index]? with
    | none => s
    | some b =>
      if s.ch.Active then
        { s with
          ch := s.ch.moved
          current := ⟨s.current.snapshot, s.current.sent ++ [(s.ch.index, b)]⟩ }
      else s
  | .irq =>
    if s.ch.fdt then
      { s with
        usart1TxDmaStatus := 1
        ch := { s.ch with fdt := false, enabled := false }
        current := ⟨s.current.snapshot, []⟩
        frames := s.frames ++ [s.current] }
    else s

/-- The boot sequence enables the channel on the zeroed buffer. -/
def txBoot : Tx :=
  let zeros := List.replicate USART1_TX_BUFFER_SIZE 0
  ⟨.armed DMA1_CHANNEL7_BUFFER_SIZE true, zeros, 0, .idle, [zeros], ⟨zeros, []⟩, []⟩

/-! ## What a step can do -/

/-- Everything a step of the other parties can do to the channel and its transfers. -/
theorem txStep_cases (t : Tx) {e : TxEvent} (he : e ≠ .send) :
    ((txStep t e).ch = t.ch ∧ (txStep t e).current = t.current ∧
        (txStep t e).frames = t.frames) ∨
    (t.ch.enabled = false ∧ (txStep t e).ch = { t.ch with enabled := true } ∧
        (txStep t e).current.sent = [] ∧ (txStep t e).frames = t.frames) ∨
    (t.ch.fdt = true ∧ (txStep t e).ch = { t.ch with fdt := false, enabled := false } ∧
        (txStep t e).current.sent = [] ∧ (txStep t e).frames = t.frames ++ [t.current]) := by
  cases e with
  | call data =>
    rw [txStep]
    split_ifs <;> exact .inl ⟨rfl, rfl, rfl⟩
  | write =>
    rw [txStep]
    split
    · split_ifs <;> exact .inl ⟨rfl, rfl, rfl⟩
    · exact .inl ⟨rfl, rfl, rfl⟩
  | enable =>
    rw [txStep]
    split_ifs with hw hen
    · refine .inl ⟨?_, rfl, rfl⟩
      show { t.ch with enabled := true } = t.ch
      rw [← hen]
    · exact .inr (.inl ⟨Bool.eq_false_iff.mpr hen, rfl, rfl, rfl⟩)
    · exact .inl ⟨rfl, rfl, rfl⟩
  | send => exact absurd rfl he
  | irq =>
    rw [txStep]
    split_ifs with hfdt
    · exact .inr (.inr ⟨hfdt, rfl, rfl, rfl⟩)
    · exact .inl ⟨rfl, rfl, rfl⟩

/-- A byte that the channel sends. -/
theorem txStep_send {t : Tx} {b : UInt8} (hact : t.ch.Active)
    (hb : t.uart1TxBuffer[t.ch.index]? = some b) :
    txStep t .send = { t with
      ch := t.ch.moved
      current := ⟨t.current.snapshot, t.current.sent ++ [(t.ch.index, b)]⟩ } := by
  simp only [txStep, hb, if_pos hact]

/-- It sends one or does nothing. -/
theorem txStep_send_cases (t : Tx) :
    txStep t .send = t ∨ ∃ b, t.ch.Active ∧ t.uart1TxBuffer[t.ch.index]? = some b := by
  by_cases hact : t.ch.Active
  · cases hb : t.uart1TxBuffer[t.ch.index]? with
    | none => exact .inl (by simp only [txStep, hb])
    | some b => exact .inr ⟨b, hact, rfl⟩
  · refine .inl ?_
    simp only [txStep, if_neg hact]
    split <;> rfl

/-! ## The invariant -/

/-- The bytes sent are bytes of the buffer the transfer was enabled with, and that is what
one call, or boot, has left. -/
def Transfer.Pure (t : Transfer) (images : List (List UInt8)) : Prop :=
  t.snapshot ∈ images ∧ ∀ r ∈ t.sent, t.snapshot[r.1]? = some r.2

structure Clean (s : Tx) : Prop where
  length : s.uart1TxBuffer.length = USART1_TX_BUFFER_SIZE
  sending : s.ch.enabled = true → s.pc = .idle ∧ s.uart1TxBuffer = s.current.snapshot
  /-- The first `i` bytes of the frame are written. -/
  copying : ∀ data i, s.pc = .copy data i → data.length ≤ N ∧ i ≤ (frameBytes data).length ∧
    ∃ base, base.length = USART1_TX_BUFFER_SIZE ∧
      usart1SendFloatArray data data.length base ∈ s.images ∧
      s.uart1TxBuffer = (frameBytes data).take i ++ base.drop i
  waiting : s.pc = .wait → s.uart1TxBuffer ∈ s.images
  current : s.current.Pure s.images
  frames : ∀ t ∈ s.frames, t.Pure s.images

/-- The transfer has sent the bytes of its buffer in order from `start` on. -/
def Transfer.SentFrom (t : Transfer) (start : ℕ) : Prop :=
  start < USART1_TX_BUFFER_SIZE ∧
    t.sent.map Prod.fst = (List.range' start t.sent.length).map (· % USART1_TX_BUFFER_SIZE)

structure Ordered (s : Tx) : Prop where
  size : s.ch.size = USART1_TX_BUFFER_SIZE
  rounds : s.ch.Rounds
  current : ∃ start, s.current.SentFrom start ∧
    s.ch.index = (start + s.current.sent.length) % USART1_TX_BUFFER_SIZE
  frames : ∀ t ∈ s.frames, ∃ start, t.SentFrom start

/-- Where a transfer stands when no byte is sent between the end of the count and the
interrupt. -/
structure Timely (s : Tx) : Prop where
  off : s.ch.enabled = false → s.ch.fdt = false ∧ s.current.sent = []
  counting : s.ch.fdt = false → s.ch.index = s.current.sent.length
  ended : s.ch.fdt = true → s.ch.index = 0 ∧ s.current.sent.length = USART1_TX_BUFFER_SIZE
  frames : ∀ t ∈ s.frames, t.sent.map Prod.fst = List.range USART1_TX_BUFFER_SIZE

def Tx.Sized (s : Tx) : Prop :=
  s.uart1TxBuffer.length = USART1_TX_BUFFER_SIZE ∧
    ∀ image ∈ s.images, image.length = USART1_TX_BUFFER_SIZE

/-- No byte is sent while the interrupt is pending. -/
def InTime (s : Tx) : TxEvent → Prop
  | .send => s.ch.fdt = false
  | _ => True

/-- A call begins with no transfer in progress. -/
def Spaced (s : Tx) : TxEvent → Prop
  | .call _ => s.ch.enabled = false
  | _ => True

theorem txBoot_clean : Clean txBoot where
  length := rfl
  sending _ := ⟨rfl, rfl⟩
  copying _ _ h := by cases h
  waiting h := by cases h
  current := ⟨List.mem_singleton_self _, nofun⟩
  frames := nofun

theorem frameBytes_length (data : List UInt32) :
    (frameBytes data).length = data.length * 4 + 4 := by
  rw [frameBytes, List.length_append, dataBytes_length]
  rfl

theorem Transfer.Pure.mono {t : Transfer} {images images' : List (List UInt8)}
    (h : t.Pure images) (hsub : images ⊆ images') : t.Pure images' :=
  ⟨hsub h.1, h.2⟩

/-! ## Steps -/

section Steps

variable {s : Tx}

/-- A call under way has the channel to itself. -/
theorem Clean.disabled (h : Clean s) (hpc : s.pc ≠ .idle) : s.ch.enabled = false := by
  by_contra hcon
  exact hpc (h.sending (Bool.not_eq_false _ ▸ hcon)).1

theorem Clean.call (h : Clean s) (data : { data : List UInt32 // data.length ≤ N })
    (hc : Spaced s (.call data)) : Clean (txStep s (.call data)) := by
  rw [txStep]
  split_ifs with hpc
  swap
  · exact h
  have hsub : s.images ⊆ s.images ++
      [usart1SendFloatArray data.val data.val.length s.uart1TxBuffer] :=
    List.subset_append_left _ _
  refine ⟨h.length, fun he => ?_, ?_, nofun, h.current.mono hsub,
    fun t ht => (h.frames t ht).mono hsub⟩
  · rw [show s.ch.enabled = false from hc] at he
    cases he
  · rintro d i heq
    cases heq
    exact ⟨data.property, Nat.zero_le _, s.uart1TxBuffer, h.length,
      List.mem_append_right _ (List.mem_singleton_self _), rfl⟩

theorem Clean.write (h : Clean s) : Clean (txStep s .write) := by
  cases hpc : s.pc with
  | idle => simpa only [txStep, hpc] using h
  | wait => simpa only [txStep, hpc] using h
  | copy data i =>
    have hoff := h.disabled (by rw [hpc]; nofun)
    obtain ⟨hN, hi, base, hbase, himage, hbuf⟩ := h.copying data i hpc
    have hlen := frameBytes_length data
    have h3 : N = 3 := rfl
    have h16 : USART1_TX_BUFFER_SIZE = 16 := rfl
    simp only [txStep, hpc]
    split_ifs with hlt
    · refine ⟨by rw [List.length_set, h.length], fun he => ?_, ?_, nofun, h.current, h.frames⟩
      · rw [hoff] at he
        cases he
      · rintro d j heq
        cases heq
        refine ⟨hN, hlt, base, hbase, himage, ?_⟩
        rw [hbuf]
        exact overwrite_succ hlt (by omega)
    · -- the whole frame is written
      have hfull : s.uart1TxBuffer = usart1SendFloatArray data data.length base := by
        have hi' : i = data.length * 4 + 4 := by omega
        rw [usart1SendFloatArray_eq data base (by omega), hbuf, hi', ← hlen, List.take_length]
        rfl
      refine ⟨h.length, fun he => ?_, nofun, fun _ => ?_, h.current, h.frames⟩
      · rw [hoff] at he
        cases he
      · rw [hfull]
        exact himage

theorem Clean.enable (h : Clean s) : Clean (txStep s .enable) := by
  rw [txStep]
  by_cases hw : s.pc = .wait ∧ s.usart1TxDmaStatus ≠ 0
  swap
  · rwa [if_neg hw]
  have hoff := h.disabled (by rw [hw.1]; nofun)
  rw [if_pos hw, hoff, if_neg (by decide)]
  exact ⟨h.length, fun _ => ⟨rfl, rfl⟩, nofun, nofun, ⟨h.waiting hw.1, nofun⟩, h.frames⟩

theorem Clean.send (h : Clean s) : Clean (txStep s .send) := by
  obtain hsame | ⟨b, hact, hb⟩ := txStep_send_cases s
  · rwa [hsame]
  have hsend := h.sending hact.1
  rw [txStep_send hact hb]
  refine ⟨h.length, fun _ => hsend, h.copying, h.waiting, ⟨h.current.1, fun r hr => ?_⟩, h.frames⟩
  rcases List.mem_append.mp hr with hr | hr
  · exact h.current.2 r hr
  · obtain rfl := List.mem_singleton.mp hr
    rw [← hsend.2, hb]

theorem Clean.irq (h : Clean s) : Clean (txStep s .irq) := by
  rw [txStep]
  split_ifs
  · refine ⟨h.length, nofun, h.copying, h.waiting, ⟨h.current.1, nofun⟩, fun t ht => ?_⟩
    rcases List.mem_append.mp ht with ht | ht
    · exact h.frames t ht
    · obtain rfl := List.mem_singleton.mp ht
      exact h.current
  · exact h

end Steps

theorem txStep_clean (s : Tx) (e : TxEvent) (h : Clean s) (hc : Spaced s e) :
    Clean (txStep s e) := by
  cases e with
  | call data => exact h.call data hc
  | write => exact h.write
  | enable => exact h.enable
  | send => exact h.send
  | irq => exact h.irq

/-! ## The order of the bytes -/

theorem txBoot_ordered : Ordered txBoot where
  size := rfl
  rounds := ⟨rfl, by decide, le_rfl⟩
  current := ⟨0, ⟨by decide, rfl⟩, rfl⟩
  frames := nofun

section Order

variable {s : Tx}

/-- A transfer that is about to begin. -/
theorem Ordered.fresh (h : Ordered s) {t : Transfer} (ht : t.sent = []) :
    ∃ start, t.SentFrom start ∧ s.ch.index = (start + t.sent.length) % USART1_TX_BUFFER_SIZE := by
  have hlt := h.rounds.index_lt
  rw [h.size] at hlt
  refine ⟨s.ch.index, ⟨hlt, by rw [ht]; rfl⟩, ?_⟩
  rw [ht]
  exact (Nat.mod_eq_of_lt hlt).symm

theorem Ordered.keeps (h : Ordered s) {e : TxEvent} (he : e ≠ .send) : Ordered (txStep s e) := by
  rcases txStep_cases s he with ⟨hch, hcur, hfr⟩ | ⟨-, hch, hcur, hfr⟩ | ⟨-, hch, hcur, hfr⟩
  · exact ⟨hch ▸ h.size, hch ▸ h.rounds, by rw [hch, hcur]; exact h.current, hfr ▸ h.frames⟩
  · exact ⟨hch ▸ h.size, hch ▸ h.rounds, by rw [hch]; exact h.fresh hcur, hfr ▸ h.frames⟩
  · refine ⟨hch ▸ h.size, hch ▸ h.rounds, by rw [hch]; exact h.fresh hcur, fun t ht => ?_⟩
    rw [hfr] at ht
    rcases List.mem_append.mp ht with ht | ht
    · exact h.frames t ht
    · obtain ⟨start, hsent, -⟩ := h.current
      obtain rfl := List.mem_singleton.mp ht
      exact ⟨start, hsent⟩

theorem Ordered.send (h : Ordered s) : Ordered (txStep s .send) := by
  obtain hsame | ⟨b, hact, hb⟩ := txStep_send_cases s
  · rwa [hsame]
  obtain ⟨start, ⟨hlt, hsent⟩, hindex⟩ := h.current
  rw [txStep_send hact hb]
  refine ⟨by rw [DmaChannel.moved_size, h.size], h.rounds.moved, ⟨start, ⟨hlt, ?_⟩, ?_⟩, h.frames⟩
  · rw [List.map_append, hsent, List.length_append, List.length_singleton,
      List.range'_1_concat, List.map_append, hindex]
    rfl
  · rw [DmaChannel.moved_index_mod h.rounds, h.size, hindex, List.length_append,
      List.length_singleton, Nat.mod_add_mod, Nat.add_assoc]

end Order

theorem txStep_ordered (s : Tx) (e : TxEvent) (h : Ordered s) : Ordered (txStep s e) := by
  by_cases he : e = .send
  · rw [he]
    exact h.send
  · exact h.keeps he

/-! ## Interrupts in time -/

theorem txBoot_timely : Timely txBoot where
  off h := by cases h
  counting _ := rfl
  ended h := by cases h
  frames := nofun

section Time

variable {s : Tx}

/-- A round that has just ended started at the head. -/
theorem Timely.whole (ht : Timely s) (h : Ordered s) (hfdt : s.ch.fdt = true) :
    s.current.sent.map Prod.fst = List.range USART1_TX_BUFFER_SIZE := by
  obtain ⟨start, ⟨hlt, hsent⟩, hindex⟩ := h.current
  obtain ⟨h0, hlen⟩ := ht.ended hfdt
  rw [h0, hlen, Nat.add_mod_right, Nat.mod_eq_of_lt hlt] at hindex
  rw [hsent, hlen, ← hindex]
  rfl

theorem Timely.keeps (h : Timely s) (ho : Ordered s) {e : TxEvent} (he : e ≠ .send) :
    Timely (txStep s e) := by
  rcases txStep_cases s he with ⟨hch, hcur, hfr⟩ | ⟨hoff, hch, hcur, hfr⟩ | ⟨hfdt, hch, hcur, hfr⟩
  · exact ⟨by rw [hch, hcur]; exact h.off, by rw [hch, hcur]; exact h.counting,
      by rw [hch, hcur]; exact h.ended, hfr ▸ h.frames⟩
  · -- the channel was off, at the head
    obtain ⟨hfdt, hsent⟩ := h.off hoff
    have hindex := h.counting hfdt
    rw [hsent] at hindex
    refine ⟨by rw [hch]; exact nofun, fun _ => ?_, fun hended => ?_, hfr ▸ h.frames⟩
    · rw [hch, hcur]
      exact hindex
    · rw [hch] at hended
      cases hfdt.symm.trans hended
  · refine ⟨fun _ => ⟨by rw [hch], hcur⟩, fun _ => ?_, by rw [hch]; exact nofun, fun t ht => ?_⟩
    · rw [hch, hcur]
      exact (h.ended hfdt).1
    · rw [hfr] at ht
      rcases List.mem_append.mp ht with ht | ht
      · exact h.frames t ht
      · obtain rfl := List.mem_singleton.mp ht
        exact h.whole ho hfdt

theorem Timely.send (h : Timely s) (ho : Ordered s) (hfdt : s.ch.fdt = false) :
    Timely (txStep s .send) := by
  obtain hsame | ⟨b, hact, hb⟩ := txStep_send_cases s
  · rwa [hsame]
  have hlen : (s.current.sent ++ [(s.ch.index, b)]).length = s.ch.index + 1 := by
    rw [List.length_append, ← h.counting hfdt]
    rfl
  have hindex := DmaChannel.moved_index_mod ho.rounds
  have hend := DmaChannel.moved_fdt ho.rounds hfdt
  have hlt := ho.rounds.index_lt
  rw [ho.size] at hindex hend hlt
  rw [txStep_send hact hb]
  refine ⟨fun hoff => ?_, fun hon => ?_, fun hended => ?_, h.frames⟩
  · rw [DmaChannel.moved_enabled, hact.1] at hoff
    cases hoff
  · have hne : s.ch.index + 1 ≠ USART1_TX_BUFFER_SIZE := fun hlast => by
      rw [hend.mpr hlast] at hon
      cases hon
    rw [hindex, hlen, Nat.mod_eq_of_lt (by omega)]
  · have hlast := hend.mp hended
    exact ⟨by rw [hindex, hlast, Nat.mod_self], hlen.trans hlast⟩

end Time

theorem txStep_timely (s : Tx) (e : TxEvent) (ho : Ordered s) (h : Timely s) (hc : InTime s e) :
    Timely (txStep s e) := by
  by_cases he : e = .send
  · subst he
    exact h.send ho hc
  · exact h.keeps ho he

theorem txBoot_sized : txBoot.Sized :=
  ⟨rfl, fun image h => by rw [List.mem_singleton.mp h]; rfl⟩

/-- The buffer and what the calls leave in it have its size. -/
theorem txStep_sized (s : Tx) (e : TxEvent) (h : s.Sized) : (txStep s e).Sized := by
  cases e with
  | call data =>
    rw [txStep]
    split_ifs
    · refine ⟨h.1, fun image himage => ?_⟩
      rcases List.mem_append.mp himage with himage | himage
      · exact h.2 image himage
      · rw [List.mem_singleton.mp himage, usart1SendFloatArray_length, h.1]
    · exact h
  | write =>
    rw [txStep]
    split
    · split_ifs
      · exact ⟨List.length_set.trans h.1, h.2⟩
      · exact h
    · exact h
  | enable | irq =>
    rw [txStep]
    split_ifs <;> exact h
  | send =>
    obtain hsame | ⟨b, hact, hb⟩ := txStep_send_cases s
    · rwa [hsame]
    · rw [txStep_send hact hb]
      exact h

/-- The bytes of a whole round are those of the buffer. -/
theorem Transfer.Pure.whole {t : Transfer} {images : List (List UInt8)} (h : t.Pure images)
    (hlen : t.snapshot.length = USART1_TX_BUFFER_SIZE)
    (hsent : t.sent.map Prod.fst = List.range USART1_TX_BUFFER_SIZE) :
    t.sent.map Prod.snd = t.snapshot := by
  have hcount : t.sent.length = t.snapshot.length := by
    rw [hlen, ← List.length_range (n := USART1_TX_BUFFER_SIZE), ← hsent, List.length_map]
  refine List.ext_getElem (by rw [List.length_map, hcount]) fun j hj hj' => ?_
  have hjs : j < t.sent.length := hcount ▸ hj'
  have hfst : t.sent[j].1 = j := by
    have hmap : (t.sent.map Prod.fst)[j]? = some j := by
      rw [hsent, List.getElem?_range (by rwa [← hlen])]
    rw [List.getElem?_map, List.getElem?_eq_getElem hjs] at hmap
    exact Option.some.inj hmap
  have hval := h.2 t.sent[j] (List.getElem_mem hjs)
  rw [hfst, List.getElem?_eq_getElem hj'] at hval
  rw [List.getElem_map]
  exact (Option.some.inj hval).symm

/-! ## Result -/

/-- **One call in each frame.**  In every run whose calls begin with the channel disabled, the
main loop never writes while a transfer is in progress, and the bytes of every transfer, the
one in progress included, are bytes of a buffer that one call, or boot, has left, in order and
round it.  If moreover no byte is sent while the interrupt is pending, every completed frame is
that buffer. -/
theorem frames_of_single_calls (evs : List TxEvent) (h : AllSteps Spaced txStep txBoot evs) :
    let s := run txStep txBoot evs
    (∀ data i, s.pc = .copy data i → s.ch.enabled = false) ∧
    (∀ t ∈ s.current :: s.frames, t.snapshot ∈ s.images ∧
      (∀ r ∈ t.sent, t.snapshot[r.1]? = some r.2) ∧ ∃ start, t.SentFrom start) ∧
    (AllSteps InTime txStep txBoot evs → ∀ t ∈ s.frames, t.sent.map Prod.snd = t.snapshot) := by
  intro s
  have hs : Clean s := run_invariant_of txStep_clean evs txBoot txBoot_clean h
  have ho : Ordered s := run_invariant txStep_ordered evs txBoot txBoot_ordered
  refine ⟨fun data i hpc => hs.disabled (by rw [hpc]; nofun), ?_, fun hp t ht => ?_⟩
  · obtain ⟨start, hstart, -⟩ := ho.current
    refine List.forall_mem_cons.mpr ⟨⟨hs.current.1, hs.current.2, start, hstart⟩, fun t ht => ?_⟩
    exact ⟨(hs.frames t ht).1, (hs.frames t ht).2, ho.frames t ht⟩
  · have htime : Ordered s ∧ Timely s :=
      run_invariant_of (I := fun s => Ordered s ∧ Timely s)
        (fun s e hi hc => ⟨txStep_ordered s e hi.1, txStep_timely s e hi.1 hi.2 hc⟩) evs txBoot
        ⟨txBoot_ordered, txBoot_timely⟩ hp
    have hsized : s.Sized := run_invariant txStep_sized evs txBoot txBoot_sized
    exact (hs.frames t ht).whole (hsized.2 _ (hs.frames t ht).1) (htime.2.frames t ht)

instance (s : Tx) : ∀ e, Decidable (Spaced s e)
  | .call _ => inferInstanceAs (Decidable (s.ch.enabled = false))
  | .write | .enable | .send | .irq => .isTrue trivial

instance (s : Tx) : ∀ e, Decidable (InTime s e)
  | .send => inferInstanceAs (Decidable (s.ch.fdt = false))
  | .call _ | .write | .enable | .irq => .isTrue trivial

/-- The transfer of boot and its interrupt. -/
def bootTransfer : List TxEvent := List.replicate USART1_TX_BUFFER_SIZE .send ++ [.irq]

/-- The bytes of a call with two floats, and the end of the loop. -/
def writeEvents : List TxEvent := List.replicate 13 .write

def oneTwo : { data : List UInt32 // data.length ≤ N } := ⟨[0x3F800000, 0x40000000], by decide⟩

def threeFour : { data : List UInt32 // data.length ≤ N } := ⟨[0x40400000, 0x40800000], by decide⟩

/-- A call, its transfer and its interrupt, and the next call. -/
def spacedCalls : List TxEvent :=
  bootTransfer ++ [.call oneTwo] ++ writeEvents ++ [.enable] ++ bootTransfer ++
    [.call threeFour, .write]

theorem frames_of_single_calls_two :
    let s := run txStep txBoot spacedCalls
    (∀ t ∈ s.current :: s.frames, t.snapshot ∈ s.images ∧
      (∀ r ∈ t.sent, t.snapshot[r.1]? = some r.2) ∧ ∃ start, t.SentFrom start) ∧
    ∀ t ∈ s.frames, t.sent.map Prod.snd = t.snapshot := by
  obtain ⟨-, hbytes, hwhole⟩ := frames_of_single_calls spacedCalls (by decide +kernel)
  exact ⟨hbytes, hwhole (by decide +kernel)⟩

/-- A call that begins with the transfer of the one before in progress. -/
def hastyCall : List TxEvent :=
  bootTransfer ++ [.call oneTwo] ++ writeEvents ++ [.enable, .send, .send, .send, .send] ++
    [.call threeFour]

/-- The main loop is about to write with the channel enabled, and the frame then consists of
the first float of one call and the second of the next. -/
theorem frame_of_two_calls :
    ((run txStep txBoot hastyCall).pc = .copy threeFour.val 0 ∧
      (run txStep txBoot hastyCall).ch.enabled = true) ∧
    ∃ t ∈ (run txStep txBoot
        (hastyCall ++ writeEvents ++ List.replicate 12 .send ++ [.irq])).frames,
      ∀ image ∈ (run txStep txBoot hastyCall).images,
        ¬∀ r ∈ t.sent, image[r.1]? = some r.2 := by
  decide +kernel

end At32Foc
