import At32Foc.Printing

/-!
# What printing costs a transfer

Between the test of `USART_TDBE_FLAG` and the write of `fputc` the channel may have filled
the data register, and its byte is then overwritten.  But the printer waits for
`USART_TDC_FLAG` next, and while the channel runs the port is never out of bytes.

* `Telemetry`: a printer that has overwritten a byte of a transfer waits for its end.
* `transfer_loses_at_most_two`: so a transfer loses at most one byte to each printer.
-/

namespace At32Foc

open ControlLib

/-! ## Transfers -/

/-- The bytes DMA1 channel 7 has sent to the port in transfer number `k`. -/
def Tx.fetched (k : ℕ) (t : Tx) : List UInt8 :=
  ((t.frames ++ [t.current]).map fun r => r.sent.map Prod.snd).getD k []

/-- The channel answers a request before the port has sent its last byte. -/
def Prompt (s : Usart) : UsartEvent → Prop
  | .finish => s.port.dt = none → ¬s.tx.ch.Active
  | _ => True

/-- The channel runs until its handler stops it, and has then sent nothing of the next
transfer. -/
structure Tx.Looping (t : Tx) : Prop where
  count : 0 < t.ch.count
  size : 0 < t.ch.size
  loop : t.ch.loop = true
  stopped : t.ch.enabled = false → t.current.sent = []

/-- A transfer that can still send. -/
def Tx.Begun (t : Tx) (k : ℕ) : Prop :=
  k < t.frames.length ∨ k = t.frames.length ∧ t.ch.enabled = true

structure Telemetry (s : Usart) : Prop where
  looping : s.tx.Looping
  sublist : ∀ k, (bytesBy (.transfer k) s.port).Sublist (s.tx.fetched k)
  count : ∀ k, (s.tx.fetched k).length =
    (bytesBy (.transfer k) s.port).length + (s.lost.filter fun x => x.1 = k).length
  once : s.lost.Nodup
  dt : ∀ k b, s.port.dt = some (.transfer k, b) → s.tx.Begun k
  begun : ∀ x ∈ s.lost, s.tx.Begun x.1
  /-- A printer that has overwritten a byte waits, until no byte of the transfer is left. -/
  blocked : ∀ x ∈ s.lost, s.fputc x.2 = .tdc ∧ s.port.tdc = false ∨
    x.1 < s.tx.frames.length ∧ ∀ b, s.port.dt ≠ some (.transfer x.1, b)

section Fetched

variable {t : Tx} {k : ℕ}

theorem getD_concat {α : Type} (l : List α) (a d : α) (k : ℕ) :
    (l ++ [a]).getD k d = if k = l.length then a else l.getD k d := by
  rcases Nat.lt_trichotomy k l.length with h | h | h
  · rw [if_neg h.ne, List.getD_append _ _ _ _ h]
  · rw [if_pos h, List.getD_append_right _ _ _ _ h.ge, h, Nat.sub_self]
    rfl
  · rw [if_neg h.ne', List.getD_eq_default _ _ h.le, List.getD_eq_default]
    rw [List.length_append, List.length_singleton]
    exact h

theorem Tx.fetched_eq (t : Tx) (k : ℕ) : t.fetched k =
    if k = t.frames.length then t.current.sent.map Prod.snd
    else (t.frames.map fun r => r.sent.map Prod.snd).getD k [] := by
  rw [Tx.fetched, List.map_append, List.map_singleton, getD_concat, List.length_map]

theorem Tx.Looping.keeps (h : t.Looping) {e : TxEvent} (he : e ≠ .send) :
    (txStep t e).Looping := by
  rcases txStep_cases t he with ⟨hch, hcur, -⟩ | ⟨-, hch, hcur, -⟩ | ⟨-, hch, hcur, -⟩
  · exact ⟨hch ▸ h.count, hch ▸ h.size, hch ▸ h.loop, by rw [hch, hcur]; exact h.stopped⟩
  · exact ⟨hch ▸ h.count, hch ▸ h.size, hch ▸ h.loop, fun _ => hcur⟩
  · exact ⟨hch ▸ h.count, hch ▸ h.size, hch ▸ h.loop, fun _ => hcur⟩

theorem Tx.Looping.fetched_keeps (h : t.Looping) {e : TxEvent} (he : e ≠ .send) (k : ℕ) :
    (txStep t e).fetched k = t.fetched k := by
  rcases txStep_cases t he with ⟨-, hcur, hfr⟩ | ⟨hoff, -, hcur, hfr⟩ | ⟨-, -, hcur, hfr⟩
  · rw [Tx.fetched, hcur, hfr, Tx.fetched]
  · rw [Tx.fetched_eq, Tx.fetched_eq, hcur, hfr, h.stopped hoff]
  · rw [Tx.fetched_eq, hcur, hfr, List.map_append, List.map_singleton, getD_concat,
      List.length_append, List.length_map, List.length_singleton, Tx.fetched_eq t]
    split_ifs with h1 h2
    · omega
    · rw [List.getD_eq_default _ _ (by rw [List.length_map]; omega)]
      rfl
    · rfl
    · rfl

theorem Tx.Begun.keeps (h : t.Begun k) {e : TxEvent} (he : e ≠ .send) :
    (txStep t e).Begun k := by
  unfold Tx.Begun at h ⊢
  rcases txStep_cases t he with ⟨hch, -, hfr⟩ | ⟨-, hch, -, hfr⟩ | ⟨-, -, -, hfr⟩
  · rwa [hch, hfr]
  · rw [hch, hfr]
    exact h.imp_right fun h => ⟨h.1, rfl⟩
  · rw [hfr, List.length_append, List.length_singleton]
    omega

theorem txStep_frames_le (t : Tx) {e : TxEvent} (he : e ≠ .send) :
    t.frames.length ≤ (txStep t e).frames.length := by
  rcases txStep_cases t he with ⟨-, -, hfr⟩ | ⟨-, -, -, hfr⟩ | ⟨-, -, -, hfr⟩
  · exact hfr ▸ le_rfl
  · exact hfr ▸ le_rfl
  · rw [hfr, List.length_append]
    exact Nat.le_add_right _ _

theorem Tx.Looping.send (h : t.Looping) (hact : t.ch.Active) {current : Transfer} :
    { t with ch := t.ch.moved, current := current }.Looping where
  count := by
    show 0 < t.ch.moved.count
    have hcount := h.count
    by_cases h1 : t.ch.count = 1
    · rw [DmaChannel.moved, if_pos h1, h.loop]
      exact h.size
    · rw [DmaChannel.moved_of_one_lt (by omega)]
      show 0 < t.ch.count - 1
      omega
  size := by
    rw [DmaChannel.moved_size]
    exact h.size
  loop := by
    rw [DmaChannel.moved_loop]
    exact h.loop
  stopped hoff := by
    rw [DmaChannel.moved_enabled, hact.1] at hoff
    cases hoff

end Fetched

section Telemetry

variable {s : Usart}

/-- A printer that has overwritten a byte of a transfer goes on when it is over. -/
theorem Telemetry.setPc (h : Telemetry s) {p : Printer} {pc : FputcPc}
    (hd : s.fputc p = .tdc → s.port.tdc = true) : Telemetry (s.setPc p pc) where
  looping := h.looping
  sublist := h.sublist
  count := h.count
  once := h.once
  dt := h.dt
  begun := h.begun
  blocked x hx := by
    by_cases hxp : x.2 = p
    · refine .inr ((h.blocked x hx).resolve_left fun ⟨htdc, hoff⟩ => ?_)
      rw [hd (hxp ▸ htdc)] at hoff
      cases hoff
    · rw [Usart.setPc_of_ne _ _ hxp]
      exact h.blocked x hx

theorem Usart.overwritten_eq_some {k : ℕ} :
    s.overwritten = some k ↔ ∃ b, s.port.dt = some (.transfer k, b) := by
  unfold Usart.overwritten
  split
  · rename_i k' b hdt
    simp [hdt]
  · rename_i hne
    simpa using hne k

theorem bytesBy_write (p : Printer) (ch : UInt8) (k : ℕ) :
    bytesBy (.transfer k) s.port = bytesBy (.transfer k) (s.write p ch).port ++
      if s.overwritten = some k then (s.port.dt.toList).map Prod.snd else [] := by
  split_ifs with hk
  · obtain ⟨b, hb⟩ := Usart.overwritten_eq_some.mp hk
    have hq := SerialPort.filter_queue_overwritten (SentByte.isBy (.transfer k))
      (a := (.printer p, ch)) hb (by simp [SentByte.isBy]) (by simp [SentByte.isBy])
    rw [bytesBy, hq, List.map_append, hb]
    rfl
  · have hdt : ∀ y, s.port.dt = some y → y.1 ≠ .transfer k := fun y hy hw =>
      hk (Usart.overwritten_eq_some.mpr ⟨y.2, by rw [hy, ← hw]⟩)
    rw [bytesBy_transmitted, bytesBy_put hdt, if_neg (by simp), List.append_nil, List.append_nil]

theorem Telemetry.write (h : Telemetry s) {p : Printer} {ch : UInt8}
    (hp : s.fputc p = .transmit ch) : Telemetry (s.write p ch) where
  looping := h.looping
  sublist k := by
    have hb := bytesBy_write (s := s) p ch k
    refine List.Sublist.trans ?_ (h.sublist k)
    rw [hb]
    exact List.sublist_append_left _ _
  count k := by
    have hb := congrArg List.length (bytesBy_write (s := s) p ch k)
    rw [List.length_append] at hb
    have hc := h.count k
    have hl : (s.write p ch).lost = s.lost ++ s.overwritten.toList.map fun k => (k, p) := rfl
    rw [hl, List.filter_append, List.length_append]
    show (s.tx.fetched k).length = _
    cases ho : s.overwritten with
    | none =>
      rw [ho, if_neg nofun, List.length_nil] at hb
      simp only [Option.toList_none, List.map_nil, List.filter_nil, List.length_nil]
      omega
    | some k' =>
      obtain ⟨b, hdt⟩ := Usart.overwritten_eq_some.mp ho
      rw [ho, hdt] at hb
      by_cases hk : k' = k
      · rw [if_pos (congrArg some hk)] at hb
        simp only [Option.toList_some, List.map_cons, List.map_nil, List.length_singleton] at hb
        simp only [Option.toList_some, List.map_cons, List.map_nil, hk, decide_true,
          List.filter_cons_of_pos, List.filter_nil, List.length_singleton]
        omega
      · rw [if_neg fun hk' => hk (Option.some.inj hk'), List.length_nil] at hb
        simp only [Option.toList_some, List.map_cons, List.map_nil, hk, decide_false,
          List.filter_nil, List.length_nil, Bool.false_eq_true, not_false_eq_true,
          List.filter_cons_of_neg]
        omega
  once := by
    refine List.Nodup.append h.once ?_ fun x hx hx' => ?_
    · cases s.overwritten <;> simp
    · -- the printer is not one of those that wait, and there is a byte to overwrite
      obtain ⟨k, hk, rfl⟩ := List.mem_map.mp hx'
      obtain ⟨b, hb⟩ := Usart.overwritten_eq_some.mp (Option.mem_toList.mp hk)
      rcases h.blocked _ hx with ⟨htdc, -⟩ | ⟨-, hnone⟩
      · cases hp.symm.trans htdc
      · exact hnone b hb
  dt k b hb := by cases Option.some.inj hb
  begun x hx := by
    rcases List.mem_append.mp hx with hx | hx
    · exact h.begun x hx
    · obtain ⟨k, hk, rfl⟩ := List.mem_map.mp hx
      obtain ⟨b, hb⟩ := Usart.overwritten_eq_some.mp (Option.mem_toList.mp hk)
      exact h.dt k b hb
  blocked x hx := by
    rcases List.mem_append.mp hx with hx | hx
    · by_cases hxp : x.2 = p
      · have hover := (h.blocked x hx).resolve_left fun ⟨htdc, _⟩ => by
          cases hp.symm.trans (hxp ▸ htdc)
        exact .inr ⟨hover.1, fun b hb => by cases Option.some.inj hb⟩
      · rw [Usart.write_of_ne _ _ hxp]
        exact (h.blocked x hx).imp (fun ⟨htdc, _⟩ => ⟨htdc, rfl⟩)
          (And.imp_right fun _ b hb => by cases Option.some.inj hb)
    · obtain ⟨k, -, rfl⟩ := List.mem_map.mp hx
      exact .inl ⟨s.write_self ch, rfl⟩

theorem Telemetry.fputcStep (h : Telemetry s) (p : Printer) : Telemetry (s.fputcStep p) := by
  unfold Usart.fputcStep
  split
  · exact h
  · rename_i ch hp
    split_ifs
    · exact h.setPc (by simp [hp])
    · exact h
  · exact h.write ‹_›
  · split_ifs with htdc
    · exact h.setPc fun _ => htdc
    · exact h

theorem Telemetry.tx (h : Telemetry s) {e : TxEvent} (he : e ≠ .send) :
    Telemetry { s with tx := txStep s.tx e } where
  looping := h.looping.keeps he
  sublist k := by
    rw [h.looping.fetched_keeps he]
    exact h.sublist k
  count k := by
    rw [h.looping.fetched_keeps he]
    exact h.count k
  once := h.once
  dt k b hb := (h.dt k b hb).keeps he
  begun x hx := (h.begun x hx).keeps he
  blocked x hx := (h.blocked x hx).imp_right
    (And.imp_left fun hlt => hlt.trans_le (txStep_frames_le s.tx he))

theorem Telemetry.sendFloatArray (h : Telemetry s) {e : TxEvent} (he : e ≠ .send) :
    Telemetry (s.sendFloatArray e) := by
  unfold Usart.sendFloatArray
  split_ifs
  · exact h.tx he
  · exact h

theorem Telemetry.dmaSend (h : Telemetry s) : Telemetry s.dmaSend := by
  unfold Usart.dmaSend
  split
  swap
  · exact h
  rename_i b hdt hreq
  obtain ⟨hact, hb⟩ : s.tx.ch.Active ∧ s.tx.uart1TxBuffer[s.tx.ch.index]? = some b := by
    unfold Usart.request at hreq
    split_ifs at hreq with hact
    exact ⟨hact, hreq⟩
  rw [txStep_send hact hb]
  have hbytes (k : ℕ) : bytesBy (.transfer k) (s.port.put (.transfer s.tx.frames.length, b)) =
      bytesBy (.transfer k) s.port ++ if k = s.tx.frames.length then [b] else [] := by
    rw [bytesBy_put (by simp [hdt])]
    simp only [Writer.transfer.injEq, eq_comm]
  have hfetched (k : ℕ) : Tx.fetched k { s.tx with
      ch := s.tx.ch.moved
      current := ⟨s.tx.current.snapshot, s.tx.current.sent ++ [(s.tx.ch.index, b)]⟩ } =
      s.tx.fetched k ++ if k = s.tx.frames.length then [b] else [] := by
    rw [Tx.fetched_eq, Tx.fetched_eq s.tx]
    split_ifs
    · rw [List.map_append]
      rfl
    · rw [List.append_nil]
  refine ⟨h.looping.send hact, fun k => ?_, fun k => ?_, h.once, fun k b' hb' => ?_,
    fun x hx => ?_, fun x hx => ?_⟩
  · rw [hbytes, hfetched]
    exact (h.sublist k).append_right _
  · rw [hbytes, hfetched, List.length_append, List.length_append, h.count k]
    exact Nat.add_right_comm _ _ _
  · cases Option.some.inj hb'
    exact .inr ⟨rfl, (DmaChannel.moved_enabled _).trans hact.1⟩
  · exact (h.begun x hx).imp_right (And.imp_right fun hen => (DmaChannel.moved_enabled _).trans hen)
  · refine (h.blocked x hx).imp_right fun ⟨hlt, _⟩ => ⟨hlt, fun b' hb' => ?_⟩
    -- the new byte is one of the transfer in progress
    have hk : s.tx.frames.length = x.1 :=
      Writer.transfer.inj (congrArg Prod.fst (Option.some.inj hb'))
    omega

theorem Telemetry.load (h : Telemetry s) : Telemetry { s with port := s.port.load } where
  looping := h.looping
  sublist k := by
    rw [bytesBy_load]
    exact h.sublist k
  count k := by
    rw [bytesBy_load]
    exact h.count k
  once := h.once
  dt k b hb := h.dt k b (SerialPort.load_dt hb)
  begun := h.begun
  blocked x hx := by
    rw [SerialPort.load_tdc]
    exact (h.blocked x hx).imp_right
      (And.imp_right fun hnone b hb => hnone b (SerialPort.load_dt hb))

theorem Telemetry.finish (h : Telemetry s) (hc : Prompt s .finish) :
    Telemetry { s with port := s.port.finish } where
  looping := h.looping
  sublist k := by
    rw [bytesBy_finish]
    exact h.sublist k
  count k := by
    rw [bytesBy_finish]
    exact h.count k
  once := h.once
  dt k b hb := h.dt k b (by rwa [SerialPort.finish_dt] at hb)
  begun := h.begun
  blocked x hx := by
    rw [SerialPort.finish_dt]
    rcases h.blocked x hx with ⟨htdc, hoff⟩ | hover
    · by_cases hdt : s.port.dt = none
      · -- the flag may go up now, but the transfer is over
        have hen : s.tx.ch.enabled ≠ true := fun hen => hc hdt ⟨hen, h.looping.count⟩
        exact .inr ⟨(h.begun x hx).resolve_right fun hb => hen hb.2, by simp [hdt]⟩
      · refine .inl ⟨htdc, ?_⟩
        unfold SerialPort.finish
        split
        · exact hoff
        · simp [hoff, Option.isSome_iff_ne_none, hdt]
    · exact .inr hover

end Telemetry

theorem usartStep_telemetry (s : Usart) (e : UsartEvent) (h : Telemetry s) (hc : Prompt s e) :
    Telemetry (usartStep s e) := by
  cases e with
  | call data => exact h.sendFloatArray nofun
  | write => exact h.sendFloatArray nofun
  | enable => exact h.sendFloatArray nofun
  | send => exact h.dmaSend
  | irq => exact h.tx nofun
  | fputc p ch =>
    rw [usartStep]
    split_ifs with hp
    · have hs : Telemetry (s.setPc p (.tdbe ch)) := h.setPc (by simp [hp.2])
      exact ⟨hs.looping, hs.sublist, hs.count, hs.once, hs.dt, hs.begun, hs.blocked⟩
    · exact h
  | step p =>
    rw [usartStep]
    split_ifs
    · exact h.fputcStep p
    · exact h
  | canEnter => exact ⟨h.looping, h.sublist, h.count, h.once, h.dt, h.begun, h.blocked⟩
  | canLeave =>
    rw [usartStep]
    split_ifs
    · exact ⟨h.looping, h.sublist, h.count, h.once, h.dt, h.begun, h.blocked⟩
    · exact h
  | load => exact h.load
  | finish => exact h.finish hc

theorem usartBoot_telemetry : Telemetry usartBoot where
  looping := ⟨by decide, by decide, rfl, nofun⟩
  sublist k := List.nil_sublist _
  count k := by
    rw [Tx.fetched_eq]
    split_ifs <;> rfl
  once := List.nodup_nil
  dt := nofun
  begun := nofun
  blocked := nofun

/-- There are two printers. -/
theorem length_lost (lost : List (ℕ × Printer)) (k : ℕ) :
    (lost.filter fun x => x.1 = k).length = lost.count (k, .main) + lost.count (k, .can) := by
  induction lost with
  | nil => rfl
  | cons x lost ih =>
    obtain ⟨k', p⟩ := x
    rw [List.count_cons, List.count_cons]
    by_cases hk : k' = k
    · subst hk
      rw [List.filter_cons_of_pos (by simp), List.length_cons, ih]
      cases p <;> simp <;> omega
    · rw [List.filter_cons_of_neg (by simpa using hk), ih]
      simp [hk]

/-- **A transfer loses at most two bytes.**  In every run in which the channel answers its
requests in time, what is sent of a transfer is in order, and what is missing are the bytes
that the printers have overwritten: at most one for each. -/
theorem transfer_loses_at_most_two (evs : List UsartEvent)
    (h : AllSteps Prompt usartStep usartBoot evs) (k : ℕ) :
    let s := run usartStep usartBoot evs
    (bytesBy (.transfer k) s.port).Sublist (s.tx.fetched k) ∧
      (s.tx.fetched k).length = (bytesBy (.transfer k) s.port).length +
        (s.lost.count (k, .main) + s.lost.count (k, .can)) ∧
      (∀ p, s.lost.count (k, p) ≤ 1) ∧
      (s.tx.fetched k).length ≤ (bytesBy (.transfer k) s.port).length + 2 := by
  intro s
  have ht : Telemetry s :=
    run_invariant_of usartStep_telemetry evs usartBoot usartBoot_telemetry h
  have hcount := ht.count k
  rw [length_lost] at hcount
  have honce : ∀ p, s.lost.count (k, p) ≤ 1 := fun p => List.nodup_iff_count_le_one.mp ht.once _
  refine ⟨ht.sublist k, hcount, honce, ?_⟩
  have hmain := honce .main
  have hcan := honce .can
  omega

instance (s : Usart) : ∀ e, Decidable (Prompt s e)
  | .finish => inferInstanceAs (Decidable (_ → _))
  | .call _ | .write | .enable | .send | .irq | .fputc _ _ | .step _ | .canEnter | .canLeave
  | .load => .isTrue trivial

/-- The main loop prints during the transfer of the boot sequence, and the CAN handler does
so while the main loop waits. -/
def printEvents : List UsartEvent :=
  [.fputc .main 65, .step .main, .send, .step .main, .load, .canEnter, .fputc .can 66,
   .step .can, .send, .step .can, .finish, .load, .send, .step .main, .step .can]

/-- Both printers cost the transfer a byte, and both then wait. -/
theorem transfer_loses_at_most_two_both :
    let s := run usartStep usartBoot printEvents
    (s.tx.fetched 0).length = 3 ∧ (bytesBy (.transfer 0) s.port).length = 1 ∧
      (s.tx.fetched 0).length = (bytesBy (.transfer 0) s.port).length +
        (s.lost.count (0, .main) + s.lost.count (0, .can)) ∧
      ∀ p, s.lost.count (0, p) ≤ 1 := by
  obtain ⟨-, hcount, honce, -⟩ := transfer_loses_at_most_two printEvents (by decide) 0
  exact ⟨by decide, by decide, hcount, honce⟩

end At32Foc
