import At32Foc.Lib.Run
import At32Foc.Lib.Framing

/-!
# Telemetry frames

`USART1_SendFloatArray` copies an array to the head of `uart1_tx_buffer`, the tail
00 00 80 7F behind it, and starts a transfer; the transfer always sends the whole buffer,
which is as long as the frame of `N` floats.  Floats are their bit patterns.

* `usart1SendFloatArray_eq`: what a call leaves in the buffer.
* `txStream_of_full`: arrays of `N` floats are sent as their frames.
* `telemetry_roundtrip_iff`: the receiver gets the arrays back if and only if all of them
  have `N` floats.
-/

namespace At32Foc

open ControlLib

/-! ## Algorithm -/

def N : ℕ := 3
def USART1_TX_BUFFER_SIZE : ℕ := 4 * N + 4
def DMA1_CHANNEL7_BUFFER_SIZE : ℕ := USART1_TX_BUFFER_SIZE

/-- The bytes of a `float` in memory, from its bit pattern. -/
def floatBytes (bits : UInt32) : List UInt8 :=
  [bits.toUInt8, (bits >>> 8).toUInt8, (bits >>> 16).toUInt8, (bits >>> 24).toUInt8]

def dataBytes (data : List UInt32) : List UInt8 := data.flatMap floatBytes

def frameTail : List UInt8 := [0x00, 0x00, 0x80, 0x7F]

/-- The loop that copies `n` bytes to the buffer. -/
def copyBytes (bytePtr : List UInt8) (n : ℕ) (uart1TxBuffer : List UInt8) : List UInt8 :=
  (List.range n).foldl (fun buf i => buf.set i (bytePtr.getD i 0)) uart1TxBuffer

def usart1SendFloatArray (data : List UInt32) (size : ℕ) (uart1TxBuffer : List UInt8) :
    List UInt8 :=
  let buf := copyBytes (dataBytes data) (size * 4) uart1TxBuffer
  let buf := buf.set (size * 4) 0x00
  let buf := buf.set (size * 4 + 1) 0x00
  let buf := buf.set (size * 4 + 2) 0x80
  buf.set (size * 4 + 3) 0x7F

/-- An array the telemetry may carry. -/
structure Samples where
  data : List UInt32
  pos : 1 ≤ data.length
  le : data.length ≤ N
  noTail : ¬frameTail <:+: dataBytes data

/-- A call and its transfer: the buffer, and all bytes sent so far. -/
def sendStep (s : List UInt8 × List UInt8) (c : Samples) : List UInt8 × List UInt8 :=
  let buf := usart1SendFloatArray c.data c.data.length s.1
  (buf, s.2 ++ buf.take DMA1_CHANNEL7_BUFFER_SIZE)

/-- What a sequence of calls sends after boot. -/
def txStream (calls : List Samples) : List UInt8 :=
  (run sendStep (List.replicate USART1_TX_BUFFER_SIZE 0, []) calls).2

/-! ## One call -/

theorem dataBytes_length (data : List UInt32) : (dataBytes data).length = data.length * 4 := by
  induction data with
  | nil => rfl
  | cons bits data ih =>
    have h : dataBytes (bits :: data) = floatBytes bits ++ dataBytes data := rfl
    rw [h, List.length_append, ih, List.length_cons]
    simp only [floatBytes, List.length_cons, List.length_nil]
    omega

/-- One byte more of `bs` over the head of a buffer. -/
theorem overwrite_succ {bs buf : List UInt8} {n : ℕ} (hbs : n < bs.length) (hbuf : n < buf.length) :
    (bs.take n ++ buf.drop n).set n (bs.getD n 0) = bs.take (n + 1) ++ buf.drop (n + 1) := by
  have hlen : (bs.take n).length = n := by
    rw [List.length_take]
    omega
  have hdrop : buf.drop n = buf[n] :: buf.drop (n + 1) := List.drop_eq_getElem_cons hbuf
  have htake : bs.take (n + 1) = bs.take n ++ [bs.getD n 0] := by
    rw [List.take_succ_eq_append_getElem hbs, List.getD_eq_getElem _ _ hbs]
  rw [List.set_append_right _ _ hlen.le, hlen, Nat.sub_self, hdrop, htake, List.set_cons_zero,
    List.append_assoc, List.singleton_append]

theorem copyBytes_eq (bs : List UInt8) (n : ℕ) (buf : List UInt8) (hbs : n ≤ bs.length)
    (hbuf : n ≤ buf.length) : copyBytes bs n buf = bs.take n ++ buf.drop n := by
  induction n with
  | zero => rfl
  | succ n ih =>
    have hstep : copyBytes bs (n + 1) buf = (copyBytes bs n buf).set n (bs.getD n 0) := by
      simp only [copyBytes, List.range_succ, List.foldl_append, List.foldl_cons, List.foldl_nil]
    rw [hstep, ih (by omega) (by omega), overwrite_succ (by omega) (by omega)]

/-- A call writes the frame to the head of the buffer and leaves the rest. -/
theorem usart1SendFloatArray_eq (data : List UInt32) (buf : List UInt8)
    (h : data.length * 4 + 4 ≤ buf.length) :
    usart1SendFloatArray data data.length buf =
      dataBytes data ++ frameTail ++ buf.drop (data.length * 4 + 4) := by
  have hlen := dataBytes_length data
  have hcopy : copyBytes (dataBytes data) (data.length * 4) buf =
      dataBytes data ++ buf.drop (data.length * 4) := by
    rw [copyBytes_eq _ _ _ hlen.ge (by omega), ← hlen, List.take_length]
  obtain ⟨a, b, c, d, rest, hdrop⟩ : ∃ a b c d rest,
      buf.drop (data.length * 4) = a :: b :: c :: d :: rest := by
    have h4 : 4 ≤ (buf.drop (data.length * 4)).length := by
      rw [List.length_drop]
      omega
    match buf.drop (data.length * 4), h4 with
    | a :: b :: c :: d :: rest, _ => exact ⟨a, b, c, d, rest, rfl⟩
  have hrest : buf.drop (data.length * 4 + 4) = rest := by
    rw [← List.drop_drop, hdrop]
    rfl
  have hset (l x : List UInt8) (i : ℕ) (v : UInt8) :
      (l ++ x).set (l.length + i) v = l ++ x.set i v := by
    rw [List.set_append_right _ _ (by omega), Nat.add_sub_cancel_left]
  unfold usart1SendFloatArray
  rw [hcopy, hdrop, hrest, ← hlen]
  have h0 := hset (dataBytes data) (a :: b :: c :: d :: rest) 0 0x00
  rw [Nat.add_zero] at h0
  simp only [h0, hset]
  simp [frameTail]

theorem usart1SendFloatArray_length (data : List UInt32) (size : ℕ) (buf : List UInt8) :
    (usart1SendFloatArray data size buf).length = buf.length := by
  have hcopy : (copyBytes (dataBytes data) (size * 4) buf).length = buf.length := by
    unfold copyBytes
    induction size * 4 with
    | zero => rfl
    | succ n ih =>
      rw [List.range_succ, List.foldl_append, List.foldl_cons, List.foldl_nil, List.length_set, ih]
  simp only [usart1SendFloatArray, List.length_set, hcopy]

/-- A float is read back from its bytes. -/
theorem floatBytes_injective : Function.Injective floatBytes := by
  intro x y h
  simp only [floatBytes, List.cons.injEq, and_true, ← UInt8.toNat_inj] at h
  obtain ⟨h0, h1, h2, h3⟩ := h
  rw [← UInt32.toNat_inj]
  have e8 : UInt32.toNat 8 % 32 = 8 := rfl
  have e16 : UInt32.toNat 16 % 32 = 16 := rfl
  have e24 : UInt32.toNat 24 % 32 = 24 := rfl
  simp only [UInt32.toNat_toUInt8, UInt32.toNat_shiftRight, Nat.shiftRight_eq_div_pow, e8, e16,
    e24] at h0 h1 h2 h3
  have hx := x.toNat_lt
  have hy := y.toNat_lt
  omega

/-- And so is an array. -/
theorem dataBytes_injective : Function.Injective dataBytes := by
  intro xs ys h
  induction xs generalizing ys with
  | nil =>
    cases ys with
    | nil => rfl
    | cons y ys => cases h
  | cons x xs ih =>
    cases ys with
    | nil => cases h
    | cons y ys =>
      have h' : floatBytes x ++ dataBytes xs = floatBytes y ++ dataBytes ys := h
      obtain ⟨hx, hxs⟩ := List.append_inj h' rfl
      rw [floatBytes_injective hx, ih hxs]

/-! ## The stream -/

/-- Every transfer sends the same number of bytes. -/
theorem txStream_length (calls : List Samples) :
    (txStream calls).length = 16 * calls.length := by
  have hrun : ∀ s : List UInt8 × List UInt8, s.1.length = 16 →
      (run sendStep s calls).2.length = s.2.length + 16 * calls.length := by
    induction calls with
    | nil => intro s _; rfl
    | cons c calls ih =>
      intro s hs
      have hbuf : (sendStep s c).1.length = 16 :=
        (usart1SendFloatArray_length c.data c.data.length s.1).trans hs
      have hsent : (sendStep s c).2.length = s.2.length + 16 := by
        have hlen : (usart1SendFloatArray c.data c.data.length s.1).length = 16 := hbuf
        rw [sendStep, List.length_append, List.length_take, hlen]
        rfl
      rw [run_cons, ih _ hbuf, hsent, List.length_cons]
      ring
  have h := hrun (List.replicate USART1_TX_BUFFER_SIZE 0, []) rfl
  rw [List.length_nil, Nat.zero_add] at h
  exact h

/-- An array of `N` floats fills the buffer with its frame. -/
theorem sendStep_of_full {s : List UInt8 × List UInt8} {c : Samples} (hs : s.1.length = 16)
    (hc : c.data.length = N) :
    sendStep s c = (dataBytes c.data ++ frameTail, s.2 ++ (dataBytes c.data ++ frameTail)) := by
  have hN : N = 3 := rfl
  have hbytes : (dataBytes c.data ++ frameTail).length = 16 := by
    rw [List.length_append, dataBytes_length, hc]
    rfl
  have hbuf : usart1SendFloatArray c.data c.data.length s.1 = dataBytes c.data ++ frameTail := by
    rw [usart1SendFloatArray_eq _ _ (by omega), List.drop_eq_nil_of_le (by omega), List.append_nil]
  have htake : (dataBytes c.data ++ frameTail).take DMA1_CHANNEL7_BUFFER_SIZE =
      dataBytes c.data ++ frameTail := List.take_of_length_le hbytes.le
  rw [sendStep, hbuf, htake]

theorem txStream_of_full {calls : List Samples} (h : ∀ c ∈ calls, c.data.length = N) :
    txStream calls = (calls.map fun c => dataBytes c.data).flatMap (· ++ frameTail) := by
  have hrun : ∀ s : List UInt8 × List UInt8, s.1.length = 16 → (run sendStep s calls).2 =
      s.2 ++ (calls.map fun c => dataBytes c.data).flatMap (· ++ frameTail) := by
    induction calls with
    | nil => intro s _; simp
    | cons c calls ih =>
      intro s hs
      rw [List.forall_mem_cons] at h
      have hstep := sendStep_of_full hs h.1
      have hlen : (sendStep s c).1.length = 16 :=
        (usart1SendFloatArray_length c.data c.data.length s.1).trans hs
      rw [run_cons, ih h.2 _ hlen, hstep]
      simp
  exact hrun (List.replicate USART1_TX_BUFFER_SIZE 0, []) rfl

theorem frameTail_unbordered : Unbordered frameTail := by
  intro t hp hs
  obtain ⟨n, hn, rfl⟩ : ∃ n ≤ 4, t = frameTail.take n :=
    ⟨t.length, hp.length_le, List.prefix_iff_eq_take.mp hp⟩
  interval_cases n
  · exact .inl rfl
  · exact absurd hs (by decide)
  · exact absurd hs (by decide)
  · exact absurd hs (by decide)
  · exact .inr rfl

/-! ## Result -/

/-- What the receiver makes of a stream. -/
def received (stream : List UInt8) : List (List UInt8) × List UInt8 := splitTail frameTail [] stream

/-- A stream that splits into the frames of its calls has their length. -/
theorem length_of_received {calls : List Samples}
    (h : received (txStream calls) = (calls.map fun c => dataBytes c.data, [])) :
    (calls.map fun c => c.data.length * 4 + 4).sum = 16 * calls.length := by
  have hlen : ((received (txStream calls)).1.map fun f => f.length + frameTail.length).sum +
      (received (txStream calls)).2.length = (txStream calls).length := by
    rw [received, splitTail_length, List.length_nil, Nat.zero_add]
  rw [h, txStream_length, List.map_map, List.length_nil, Nat.add_zero] at hlen
  rw [← hlen]
  refine congrArg List.sum (List.map_congr_left fun c _ => ?_)
  rw [Function.comp_apply, dataBytes_length]
  rfl

/-- Frames of at most 16 bytes that add up to 16 each have 16. -/
theorem full_of_sum {calls : List Samples}
    (h : (calls.map fun c => c.data.length * 4 + 4).sum = 16 * calls.length) :
    ∀ c ∈ calls, c.data.length = N := by
  have hN : N = 3 := rfl
  have hle : ∀ cs : List Samples,
      (cs.map fun c => c.data.length * 4 + 4).sum ≤ 16 * cs.length := by
    intro cs
    induction cs with
    | nil => exact le_rfl
    | cons c cs ih =>
      have hc := c.le
      rw [List.map_cons, List.sum_cons, List.length_cons]
      omega
  induction calls with
  | nil => exact fun c hc => absurd hc List.not_mem_nil
  | cons c calls ih =>
    have hc := c.le
    have hrest := hle calls
    rw [List.map_cons, List.sum_cons, List.length_cons] at h
    exact List.forall_mem_cons.mpr ⟨by omega, ih (by omega)⟩

theorem received_of_full {calls : List Samples} (h : ∀ c ∈ calls, c.data.length = N) :
    received (txStream calls) = (calls.map fun c => dataBytes c.data, []) := by
  rw [received, txStream_of_full h]
  refine splitTail_frames frameTail_unbordered (by decide) _ fun f hf => ?_
  obtain ⟨c, -, rfl⟩ := List.mem_map.mp hf
  exact c.noTail

/-- **Round trip.**  Whatever arrays without the tail inside are sent, the receiver gets
exactly these arrays, with nothing left over, if and only if every one of them has `N`
floats; and then it can read what it gets as no other arrays. -/
theorem telemetry_roundtrip_iff (calls : List Samples) :
    (received (txStream calls) = (calls.map fun c => dataBytes c.data, []) ↔
      ∀ c ∈ calls, c.data.length = N) ∧
    ((∀ c ∈ calls, c.data.length = N) → ∀ arrays : List (List UInt32),
      received (txStream calls) = (arrays.map dataBytes, []) ↔
        arrays = calls.map Samples.data) := by
  refine ⟨⟨fun h => full_of_sum (length_of_received h), received_of_full⟩, fun h arrays => ?_⟩
  have hmap : (calls.map fun c => dataBytes c.data) = (calls.map Samples.data).map dataBytes :=
    List.map_map.symm
  rw [received_of_full h, hmap, Prod.mk.injEq, eq_self_iff_true, and_true,
    (List.map_injective_iff.mpr dataBytes_injective).eq_iff, eq_comm]

/-- The two floats `main` sends, 1 and 2 and then 3 and 4: the second frame starts with four
bytes that no call has sent, and four more are left over. -/
theorem telemetry_of_main :
    ∃ c c' : Samples, c.data = [0x3F800000, 0x40000000] ∧ c'.data = [0x40400000, 0x40800000] ∧
      received (txStream [c, c']) =
        ([dataBytes c.data, [0, 0, 0, 0] ++ dataBytes c'.data], [0, 0, 0, 0]) :=
  ⟨⟨[0x3F800000, 0x40000000], by decide, by decide, by decide⟩,
    ⟨[0x40400000, 0x40800000], by decide, by decide, by decide⟩, rfl, rfl, by decide +kernel⟩

end At32Foc
