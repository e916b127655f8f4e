import At32Foc.Lib.BitField
import At32Foc.Lib.Run

/-!
# CAN messages

`can_message_transmit` and `can_message_receive` of the CAN driver on the registers of CAN1,
and the senders of `CAN.c`, which store a message in an empty mailbox and wait until it has
been sent.

* `Carries`: what the bus takes over from a mailbox into the receiver's FIFO.
* `message_roundtrip`: the receiver reads the message that was transmitted, its identifier
  and length cut to their fields.
* `sent_in_order`: with no other user of CAN1, every call finds a mailbox empty, and the
  frames on the bus are the messages of the calls, each once and in their order.
  `senders_sent` is the case of a call of the two senders.
* `send_returns_iff`: with others, a call can return if and only if it finds one empty.
-/

namespace At32Foc

open ControlLib

/-! ## Messages and registers -/

/-- `can_identifier_type`. -/
inductive CanIdentifier where
  | standard
  | extended
  deriving DecidableEq

/-- `can_trans_frame_type`. -/
inductive CanFrame where
  | data
  | remote
  deriving DecidableEq

def CanIdentifier.bit : CanIdentifier → BitVec 1
  | standard => 0
  | extended => 1

def CanIdentifier.ofBit (b : BitVec 1) : CanIdentifier := if b = 0 then standard else extended

def CanFrame.bit : CanFrame → BitVec 1
  | data => 0
  | remote => 1

def CanFrame.ofBit (b : BitVec 1) : CanFrame := if b = 0 then data else remote

structure CanTxMessage where
  standardId : BitVec 32
  extendedId : BitVec 32
  idType : CanIdentifier
  frameType : CanFrame
  dlc : BitVec 8
  data : Fin 8 → BitVec 8

structure CanRxMessage where
  standardId : BitVec 32
  extendedId : BitVec 32
  idType : CanIdentifier
  frameType : CanFrame
  dlc : BitVec 8
  data : Fin 8 → BitVec 8
  filterIndex : BitVec 8

structure CanTxMailbox where
  tmi : BitVec 32
  tmc : BitVec 32
  tmdtl : BitVec 32
  tmdth : BitVec 32

structure CanFifoMailbox where
  rfi : BitVec 32
  rfc : BitVec 32
  rfdtl : BitVec 32
  rfdth : BitVec 32

/-- The registers that a transmission uses. -/
structure CanType where
  tsts : BitVec 32
  txMailbox : Fin 3 → CanTxMailbox

namespace CanType

/-- `tmxtcf`, `tmxtsf` and `tmxef`: transmission completed, successful, mailbox empty. -/
def tmtcf (c : CanType) (k : Fin 3) : Bool := c.tsts.getLsbD (8 * k)

def tmtsf (c : CanType) (k : Fin 3) : Bool := c.tsts.getLsbD (8 * k + 1)

def tmef (c : CanType) (k : Fin 3) : Bool := c.tsts.getLsbD (26 + k)

def store (c : CanType) (k : Fin 3) (t : CanTxMailbox) : CanType :=
  { c with txMailbox := Function.update c.txMailbox k t }

@[simp] theorem store_self (c : CanType) (k : Fin 3) (t : CanTxMailbox) :
    (c.store k t).txMailbox k = t := Function.update_self _ _ _

end CanType

/-! ## The driver -/

/-- The first empty mailbox, `none` for `CAN_TX_STATUS_NO_EMPTY`. -/
def emptyMailbox (c : CanType) : Option (Fin 3) :=
  if c.tmef 0 then some 0
  else if c.tmef 1 then some 1
  else if c.tmef 2 then some 2
  else none

/-- Four bytes as a word. -/
def dataWord (data : Fin 8 → BitVec 8) (i0 i1 i2 i3 : Fin 8) : BitVec 32 :=
  (data i3).setWidth 32 <<< 24 ||| (data i2).setWidth 32 <<< 16 |||
    (data i1).setWidth 32 <<< 8 ||| (data i0).setWidth 32

/-- What `can_message_transmit` writes to a mailbox. -/
def fillMailbox (message : CanTxMessage) (t : CanTxMailbox) : CanTxMailbox :=
  -- set up the id
  let t := { t with tmi := t.tmi &&& 0x00000001 }
  let t := { t with tmi := setField 2 message.idType.bit t.tmi }
  let t :=
    match message.idType with
    | .standard => { t with tmi := setField 21 (message.standardId.setWidth 11) t.tmi }
    | .extended => { t with tmi := t.tmi ||| message.extendedId <<< 3 }
  let t := { t with tmi := setField 1 message.frameType.bit t.tmi }
  -- set up the dlc
  let t := { t with tmc := setField 0 ((message.dlc &&& 0x0F).setWidth 4) t.tmc }
  -- set up the data field
  let t := { t with tmdtl := dataWord message.data 0 1 2 3 }
  let t := { t with tmdth := dataWord message.data 4 5 6 7 }
  -- request transmission
  { t with tmi := setField 0 (1 : BitVec 1) t.tmi }

def canMessageTransmit (c : CanType) (message : CanTxMessage) : CanType × Option (Fin 3) :=
  match emptyMailbox c with
  | none => (c, none)
  | some k => (c.store k (fillMailbox message (c.txMailbox k)), some k)

/-- `can_transmit_status_type`. -/
inductive CanTransmitStatus where
  | failed
  | successful
  | pending
  deriving DecidableEq

def canTransmitStatusGet (c : CanType) (transmitMailbox : Option (Fin 3)) : CanTransmitStatus :=
  match transmitMailbox with
  | some k =>
    if c.tmtcf k then
      if c.tmtsf k then .successful else .failed
    else .pending
  | none => .failed

/-- The bytes of a mailbox and of a FIFO entry. -/
def CanTxMailbox.byte (t : CanTxMailbox) : Fin 8 → BitVec 8
  | 0 => getField 0 8 t.tmdtl
  | 1 => getField 8 8 t.tmdtl
  | 2 => getField 16 8 t.tmdtl
  | 3 => getField 24 8 t.tmdtl
  | 4 => getField 0 8 t.tmdth
  | 5 => getField 8 8 t.tmdth
  | 6 => getField 16 8 t.tmdth
  | 7 => getField 24 8 t.tmdth

def CanFifoMailbox.byte (r : CanFifoMailbox) : Fin 8 → BitVec 8
  | 0 => getField 0 8 r.rfdtl
  | 1 => getField 8 8 r.rfdtl
  | 2 => getField 16 8 r.rfdtl
  | 3 => getField 24 8 r.rfdtl
  | 4 => getField 0 8 r.rfdth
  | 5 => getField 8 8 r.rfdth
  | 6 => getField 16 8 r.rfdth
  | 7 => getField 24 8 r.rfdth

/-- `can_message_receive`, which leaves the identifier of the other type as it was; the FIFO
is released after it. -/
def canMessageReceive (r : CanFifoMailbox) (message : CanRxMessage) : CanRxMessage :=
  let message := { message with idType := .ofBit (getField 2 1 r.rfi) }
  let message :=
    match message.idType with
    | .standard => { message with standardId := (getField 21 11 r.rfi).setWidth 32 }
    | .extended => { message with extendedId := 0x1FFFFFFF#32 &&& r.rfi >>> 3 }
  let message := { message with frameType := .ofBit (getField 1 1 r.rfi) }
  let message := { message with dlc := (getField 0 4 r.rfc).setWidth 8 }
  let message := { message with filterIndex := getField 8 8 r.rfc }
  { message with data := r.byte }

/-! ## From mailbox to FIFO -/

/-- What the bus takes over: the extension of the identifier only in an extended frame, and
as many bytes as a data frame has. -/
structure Carries (t : CanTxMailbox) (r : CanFifoMailbox) : Prop where
  frameType : getField 1 1 r.rfi = getField 1 1 t.tmi
  idType : getField 2 1 r.rfi = getField 2 1 t.tmi
  base : getField 21 11 r.rfi = getField 21 11 t.tmi
  extension : getField 2 1 t.tmi = 1 → getField 3 18 r.rfi = getField 3 18 t.tmi
  dlc : getField 0 4 r.rfc = getField 0 4 t.tmc
  data : getField 1 1 t.tmi = 0 → ∀ i : Fin 8, i.val < (getField 0 4 t.tmc).toNat →
    r.byte i = t.byte i

/-- What is read is the message, with the fields of the frame format. -/
structure Received (message : CanTxMessage) (got : CanRxMessage) : Prop where
  idType : got.idType = message.idType
  standardId : message.idType = .standard →
    got.standardId.toNat = message.standardId.toNat % 2 ^ 11
  extendedId : message.idType = .extended →
    got.extendedId.toNat = message.extendedId.toNat % 2 ^ 29
  frameType : got.frameType = message.frameType
  dlc : got.dlc.toNat = message.dlc.toNat % 16
  data : message.frameType = .data → ∀ i : Fin 8, i.val < message.dlc.toNat % 16 →
    got.data i = message.data i

/-! ## What a mailbox holds -/

section Fill

variable (message : CanTxMessage) (t : CanTxMailbox)

/-- The identifier register before the frame type and the request are set. -/
def idWord (message : CanTxMessage) (tmi : BitVec 32) : BitVec 32 :=
  match message.idType with
  | .standard => setField 21 (message.standardId.setWidth 11)
      (setField 2 message.idType.bit (tmi &&& 0x00000001))
  | .extended => setField 2 message.idType.bit (tmi &&& 0x00000001) ||| message.extendedId <<< 3

theorem fillMailbox_tmi : (fillMailbox message t).tmi =
    setField 0 (1 : BitVec 1) (setField 1 message.frameType.bit (idWord message t.tmi)) := by
  cases hid : message.idType <;> simp only [fillMailbox, idWord, hid]

/-- The two bits that are set last leave the identifier alone. -/
theorem fillMailbox_id {lo w : ℕ} (hlo : 2 ≤ lo) :
    getField lo w (fillMailbox message t).tmi = getField lo w (idWord message t.tmi) := by
  rw [fillMailbox_tmi, getField_setField_of_disjoint (by omega) (by omega),
    getField_setField_of_disjoint (by omega) (by omega)]

theorem fillMailbox_frameType :
    getField 1 1 (fillMailbox message t).tmi = message.frameType.bit := by
  rw [fillMailbox_tmi, getField_setField_of_disjoint (by omega) (by omega),
    getField_setField (by omega)]

theorem fillMailbox_idType : getField 2 1 (fillMailbox message t).tmi = message.idType.bit := by
  rw [fillMailbox_id message t le_rfl, idWord]
  cases message.idType with
  | standard =>
    rw [getField_setField_of_disjoint (by omega) (by omega), getField_setField (by omega)]
  | extended =>
    rw [getField_or, getField_setField (by omega), getField_shiftLeft_of_le (by omega)]
    exact BitVec.or_zero

theorem fillMailbox_standardId (h : message.idType = .standard) :
    getField 21 11 (fillMailbox message t).tmi = message.standardId.setWidth 11 := by
  rw [fillMailbox_id message t (by omega), idWord, h]
  exact getField_setField (by omega) _ _

/-- The mask has cleared everything that the extended identifier is stored into. -/
theorem fillMailbox_extendedId (h : message.idType = .extended) :
    getField 3 29 (fillMailbox message t).tmi = message.extendedId.setWidth 29 := by
  have hmask : getField 3 29 (0x00000001 : BitVec 32) = 0#29 := by decide
  rw [fillMailbox_id message t (by omega), idWord, h]
  dsimp only
  rw [getField_or, getField_setField_of_disjoint (by omega) (by omega), getField_and, hmask,
    BitVec.and_zero, BitVec.zero_or, getField_shiftLeft (by omega) le_rfl]
  rfl

theorem fillMailbox_dlc :
    getField 0 4 (fillMailbox message t).tmc = (message.dlc &&& 0x0F).setWidth 4 := by
  cases hid : message.idType <;> simp only [fillMailbox, hid] <;>
    exact getField_setField (by omega) _ _

/-- Each byte of a word of data. -/
theorem dataWord_byte (data : Fin 8 → BitVec 8) (i0 i1 i2 i3 : Fin 8) :
    getField 0 8 (dataWord data i0 i1 i2 i3) = data i0 ∧
      getField 8 8 (dataWord data i0 i1 i2 i3) = data i1 ∧
      getField 16 8 (dataWord data i0 i1 i2 i3) = data i2 ∧
      getField 24 8 (dataWord data i0 i1 i2 i3) = data i3 := by
  have h0 : (data i0).setWidth 32 = (data i0).setWidth 32 <<< 0 := (BitVec.shiftLeft_zero _).symm
  have same (k : ℕ) (hk : k + 8 ≤ 32) (v : BitVec 8) : getField k 8 (v.setWidth 32 <<< k) = v :=
    getField_setWidth_shiftLeft hk v
  have other (k lo : ℕ) (h : lo + 8 ≤ 32) (hd : k + 8 ≤ lo ∨ lo + 8 ≤ k) (v : BitVec 8) :
      getField lo 8 (v.setWidth 32 <<< k) = 0#8 :=
    getField_setWidth_shiftLeft_of_disjoint h hd v
  rw [dataWord, h0]
  simp only [getField_or]
  refine ⟨?_, ?_, ?_, ?_⟩
  · rw [same 0 (by omega), other 8 0 (by omega) (by omega), other 16 0 (by omega) (by omega),
      other 24 0 (by omega) (by omega)]
    simp
  · rw [same 8 (by omega), other 0 8 (by omega) (by omega), other 16 8 (by omega) (by omega),
      other 24 8 (by omega) (by omega)]
    simp
  · rw [same 16 (by omega), other 0 16 (by omega) (by omega), other 8 16 (by omega) (by omega),
      other 24 16 (by omega) (by omega)]
    simp
  · rw [same 24 (by omega), other 0 24 (by omega) (by omega), other 8 24 (by omega) (by omega),
      other 16 24 (by omega) (by omega)]
    simp

theorem fillMailbox_byte (i : Fin 8) : (fillMailbox message t).byte i = message.data i := by
  have hl : (fillMailbox message t).tmdtl = dataWord message.data 0 1 2 3 := by
    cases hid : message.idType <;> simp only [fillMailbox, hid]
  have hh : (fillMailbox message t).tmdth = dataWord message.data 4 5 6 7 := by
    cases hid : message.idType <;> simp only [fillMailbox, hid]
  obtain ⟨h0, h1, h2, h3⟩ := dataWord_byte message.data 0 1 2 3
  obtain ⟨h4, h5, h6, h7⟩ := dataWord_byte message.data 4 5 6 7
  rw [← hl] at h0 h1 h2 h3
  rw [← hh] at h4 h5 h6 h7
  match i with
  | 0 => exact h0
  | 1 => exact h1
  | 2 => exact h2
  | 3 => exact h3
  | 4 => exact h4
  | 5 => exact h5
  | 6 => exact h6
  | 7 => exact h7

end Fill

/-! ## Round trip -/

/-- The message of `can1_transmit_data_sid`. -/
def sidMessage : CanTxMessage where
  standardId := 0x01
  extendedId := 0x01
  idType := .standard
  frameType := .data
  dlc := 8
  data := fun i => 0x10 + BitVec.ofNat 8 i

/-- The message of `can1_transmit_data_eid`. -/
def eidMessage : CanTxMessage where
  standardId := 0x02
  extendedId := 0x18F5F200
  idType := .extended
  frameType := .data
  dlc := 8
  data := fun i => 0x18 + BitVec.ofNat 8 i

theorem CanIdentifier.ofBit_bit (i : CanIdentifier) : ofBit i.bit = i := by
  cases i <;> rfl

theorem CanFrame.ofBit_bit (f : CanFrame) : ofBit f.bit = f := by
  cases f <;> rfl

/-- The extended identifier in the identifier register. -/
theorem extended_toNat (rfi : BitVec 32) :
    (0x1FFFFFFF#32 &&& rfi >>> 3).toNat = (getField 3 29 rfi).toNat := by
  have hmask : (0x1FFFFFFF#32).toNat = 2 ^ 29 - 1 := by decide
  rw [getField_toNat, BitVec.toNat_and, hmask, Nat.and_comm, Nat.and_two_pow_sub_one_eq_mod,
    BitVec.toNat_ushiftRight, Nat.shiftRight_eq_div_pow]

theorem dlc_toNat (dlc : BitVec 8) : ((dlc &&& 0x0F).setWidth 4).toNat = dlc.toNat % 16 := by
  have hmask : (0x0F : BitVec 8).toNat = 2 ^ 4 - 1 := by decide
  rw [BitVec.toNat_setWidth, BitVec.toNat_and, hmask, Nat.and_two_pow_sub_one_eq_mod,
    Nat.mod_mod]

/-- A mailbox that was filled with a message, over the bus. -/
theorem fill_received {message : CanTxMessage} {t : CanTxMailbox} {r : CanFifoMailbox}
    (hr : Carries (fillMailbox message t) r) (old : CanRxMessage) :
    Received message (canMessageReceive r old) := by
  have hid : getField 2 1 r.rfi = message.idType.bit :=
    hr.idType.trans (fillMailbox_idType message t)
  have hframe : getField 1 1 r.rfi = message.frameType.bit :=
    hr.frameType.trans (fillMailbox_frameType message t)
  have hdlc := hr.dlc.trans (fillMailbox_dlc message t)
  have hofid : CanIdentifier.ofBit (getField 2 1 r.rfi) = message.idType := by
    rw [hid, CanIdentifier.ofBit_bit]
  have hofframe : CanFrame.ofBit (getField 1 1 r.rfi) = message.frameType := by
    rw [hframe, CanFrame.ofBit_bit]
  have hstd (h : message.idType = .standard) :
      ((getField 21 11 r.rfi).setWidth 32).toNat = message.standardId.toNat % 2 ^ 11 := by
    rw [hr.base, fillMailbox_standardId message t h, BitVec.toNat_setWidth,
      BitVec.toNat_setWidth]
    omega
  have hext (h : message.idType = .extended) :
      (0x1FFFFFFF#32 &&& r.rfi >>> 3).toNat = message.extendedId.toNat % 2 ^ 29 := by
    have hbit : getField 2 1 (fillMailbox message t).tmi = 1 := by
      rw [fillMailbox_idType, h]
      rfl
    have hparts : getField 3 29 r.rfi = getField 3 29 (fillMailbox message t).tmi :=
      getField_eq_of_parts (hr.extension hbit) hr.base
    rw [extended_toNat, hparts, fillMailbox_extendedId message t h, BitVec.toNat_setWidth]
  have hlen : ((getField 0 4 r.rfc).setWidth 8).toNat = message.dlc.toNat % 16 := by
    rw [hdlc, BitVec.toNat_setWidth, dlc_toNat]
    omega
  have hdata (h : message.frameType = .data) (i : Fin 8) (hi : i.val < message.dlc.toNat % 16) :
      r.byte i = message.data i := by
    have hbit : getField 1 1 (fillMailbox message t).tmi = 0 := by
      rw [fillMailbox_frameType, h]
      rfl
    rw [hr.data hbit i (by rwa [fillMailbox_dlc, dlc_toNat]), fillMailbox_byte]
  cases hcase : message.idType <;> rw [hcase] at hofid <;>
    simp only [canMessageReceive, hofid]
  · exact ⟨hcase.symm, fun _ => hstd hcase, fun h => (nomatch hcase.symm.trans h), hofframe,
      hlen, hdata⟩
  · exact ⟨hcase.symm, fun h => (nomatch hcase.symm.trans h), fun _ => hext hcase, hofframe,
      hlen, hdata⟩

/-- **Round trip.**  Whatever the registers hold: a message that `can_message_transmit` takes,
sent over the bus, is the message that `can_message_receive` reads. -/
theorem message_roundtrip (c : CanType) (message : CanTxMessage) (k : Fin 3)
    (hk : (canMessageTransmit c message).2 = some k) (r : CanFifoMailbox)
    (hr : Carries ((canMessageTransmit c message).1.txMailbox k) r) (old : CanRxMessage) :
    Received message (canMessageReceive r old) := by
  unfold canMessageTransmit at hk hr
  cases he : emptyMailbox c with
  | none =>
    rw [he] at hk
    cases hk
  | some k' =>
    rw [he] at hk hr
    cases hk
    rw [CanType.store_self] at hr
    exact fill_received hr old

/-- A FIFO entry that holds the words of the mailbox. -/
theorem carries_same (t : CanTxMailbox) : Carries t ⟨t.tmi, t.tmc, t.tmdtl, t.tmdth⟩ := by
  refine ⟨rfl, rfl, rfl, fun _ => rfl, rfl, fun _ i _ => ?_⟩
  match i with
  | 0 | 1 | 2 | 3 | 4 | 5 | 6 | 7 => rfl

theorem message_roundtrip_sid :
    let c : CanType := ⟨0x1C000000, fun _ => ⟨0, 0, 0, 0⟩⟩
    let t := (canMessageTransmit c sidMessage).1.txMailbox 0
    Received sidMessage (canMessageReceive ⟨t.tmi, t.tmc, t.tmdtl, t.tmdth⟩
      ⟨0, 0, .standard, .data, 0, fun _ => 0, 0⟩) :=
  message_roundtrip _ sidMessage 0 (by decide) _ (carries_same _) _

/-! ## The senders -/

namespace CanType

/-- A request takes a mailbox and clears its status. -/
def request (c : CanType) (k : Fin 3) : CanType :=
  { c with tsts := setField (26 + k) (0 : BitVec 1) (setField (8 * k) (0 : BitVec 4) c.tsts) }

/-- A frame has been sent: the mailbox is empty again. -/
def complete (c : CanType) (k : Fin 3) : CanType :=
  { c with tsts := setField (26 + k) (1 : BitVec 1) (setField (8 * k) (3 : BitVec 2) c.tsts) }

end CanType

/-- Where a sender is. -/
inductive SenderPc where
  | idle
  | waiting (transmitMailbox : Option (Fin 3))
  deriving DecidableEq

structure CanNode where
  can1 : CanType
  pc : SenderPc
  /-- The messages of the calls, and the mailboxes that have been sent. -/
  calls : List CanTxMessage
  bus : List CanTxMailbox

inductive CanEvent where
  /-- A call of a sender, and one test of its loop. -/
  | send (message : CanTxMessage)
  | poll
  /-- The bus has taken a mailbox. -/
  | sent (k : Fin 3)

/-- A call up to its loop. -/
def startSend (message : CanTxMessage) (n : CanNode) : CanNode :=
  let (can1, transmitMailbox) := canMessageTransmit n.can1 message
  let can1 :=
    match transmitMailbox with
    | none => can1
    | some k => can1.request k
  { n with can1 := can1, pc := .waiting transmitMailbox, calls := n.calls ++ [message] }

def canStep (n : CanNode) : CanEvent → CanNode
  | .send message => if n.pc = .idle then startSend message n else n
  | .poll =>
    match n.pc with
    | .idle => n
    | .waiting transmitMailbox =>
      if canTransmitStatusGet n.can1 transmitMailbox = .successful then { n with pc := .idle }
      else n
  | .sent k =>
    if n.can1.tmef k then n
    else { n with can1 := n.can1.complete k, bus := n.bus ++ [n.can1.txMailbox k] }

/-- `can1_transmit_data_sid` and `can1_transmit_data_eid`, up to their loops. -/
def can1TransmitDataSid : CanNode → CanNode := startSend sidMessage

def can1TransmitDataEid : CanNode → CanNode := startSend eidMessage

/-- After reset all mailboxes are empty. -/
def canReset (txMailbox : Fin 3 → CanTxMailbox) : CanNode :=
  ⟨⟨0x1C000000, txMailbox⟩, .idle, [], []⟩

/-! ## Status bits -/

namespace CanType

variable (c : CanType) (k j : Fin 3)

/-- A bit of the status after four bits at `8 * k` and one at `26 + k` have been written. -/
theorem status_bit {w : ℕ} (hw : w ≤ 4) (v : BitVec w) (e : BitVec 1) (x : BitVec 32) (i : ℕ) :
    (setField (26 + k) e (setField (8 * k) v x)).getLsbD i =
      if i = 26 + k then e.getLsbD 0
      else if 8 * k ≤ i ∧ i < 8 * k + w then v.getLsbD (i - 8 * k) else x.getLsbD i := by
  have hk := k.isLt
  rw [getLsbD_setField (by omega), getLsbD_setField (by omega)]
  by_cases h : i = 26 + k
  · subst h
    rw [if_pos (by omega), if_pos rfl, Nat.sub_self]
  · rw [if_neg (by omega), if_neg h]

theorem request_tmef : (c.request k).tmef j = if j = k then false else c.tmef j := by
  rw [tmef, request, status_bit k (by omega), tmef]
  by_cases h : j = k
  · subst h
    rw [if_pos rfl, if_pos rfl]
    rfl
  · have hne : j.val ≠ k.val := fun h' => h (Fin.ext h')
    rw [if_neg (by omega), if_neg (by omega), if_neg h]

theorem complete_tmef : (c.complete k).tmef j = if j = k then true else c.tmef j := by
  rw [tmef, complete, status_bit k (by omega), tmef]
  by_cases h : j = k
  · subst h
    rw [if_pos rfl, if_pos rfl]
    rfl
  · have hne : j.val ≠ k.val := fun h' => h (Fin.ext h')
    rw [if_neg (by omega), if_neg (by omega), if_neg h]

theorem request_tmtcf : (c.request k).tmtcf k = false := by
  have hk := k.isLt
  rw [tmtcf, request, status_bit k (by omega), if_neg (by omega), if_pos (by omega), Nat.sub_self]
  rfl

theorem complete_status : (c.complete k).tmtcf k = true ∧ (c.complete k).tmtsf k = true := by
  have hk := k.isLt
  constructor
  · rw [tmtcf, complete, status_bit k (by omega), if_neg (by omega), if_pos (by omega),
      Nat.sub_self]
    rfl
  · rw [tmtsf, complete, status_bit k (by omega), if_neg (by omega), if_pos (by omega),
      Nat.add_sub_cancel_left]
    rfl

end CanType

theorem status_successful {c : CanType} {k : Fin 3} (h1 : c.tmtcf k = true)
    (h2 : c.tmtsf k = true) : canTransmitStatusGet c (some k) = .successful := by
  simp only [canTransmitStatusGet, h1, h2, if_true]

theorem status_pending {c : CanType} {k : Fin 3} (h : c.tmtcf k = false) :
    canTransmitStatusGet c (some k) = .pending := by
  simp only [canTransmitStatusGet, h, Bool.false_eq_true, if_false]

/-! ## The only user of CAN1 -/

/-- A mailbox that a message was stored in. -/
def Filled (message : CanTxMessage) (t : CanTxMailbox) : Prop := ∃ t0, t = fillMailbox message t0

/-- The call that is running, if any, owns mailbox 0, and it alone is not on the bus yet. -/
structure CanNode.Exclusive (n : CanNode) : Prop where
  empty : n.can1.tmef 1 = true ∧ n.can1.tmef 2 = true
  idle : n.pc = .idle → n.can1.tmef 0 = true
  waiting : ∀ r, n.pc = .waiting r → r = some 0
  sent : n.can1.tmef 0 = true → List.Forall₂ Filled n.calls n.bus ∧
    (n.pc ≠ .idle → n.can1.tmtcf 0 = true ∧ n.can1.tmtsf 0 = true)
  pending : n.can1.tmef 0 = false → n.can1.tmtcf 0 = false ∧ ∃ calls message,
    n.calls = calls ++ [message] ∧ List.Forall₂ Filled calls n.bus ∧
      Filled message (n.can1.txMailbox 0)

theorem canReset_exclusive (txMailbox : Fin 3 → CanTxMailbox) :
    (canReset txMailbox).Exclusive := by
  have hef : ∀ k : Fin 3, (canReset txMailbox).can1.tmef k = true := by
    intro k
    show (0x1C000000 : BitVec 32).getLsbD (26 + k) = true
    revert k
    decide
  refine ⟨⟨hef 1, hef 2⟩, fun _ => hef 0, fun r h => ?_, fun _ => ⟨.nil, fun h => ?_⟩, fun h => ?_⟩
  · cases h
  · exact absurd rfl h
  · rw [hef 0] at h
    cases h

/-- A call that finds a mailbox empty. -/
theorem startSend_some {n : CanNode} {message : CanTxMessage} {k : Fin 3}
    (h : emptyMailbox n.can1 = some k) :
    startSend message n =
      ⟨(n.can1.store k (fillMailbox message (n.can1.txMailbox k))).request k,
        .waiting (some k), n.calls ++ [message], n.bus⟩ := by
  simp only [startSend, canMessageTransmit, h]

theorem canStep_send (n : CanNode) (message : CanTxMessage) (h : n.Exclusive)
    (hpc : n.pc = .idle) : (startSend message n).Exclusive := by
  have hempty : emptyMailbox n.can1 = some 0 := if_pos (h.idle hpc)
  rw [startSend_some hempty]
  have hfill : (n.can1.store 0 (fillMailbox message (n.can1.txMailbox 0))).txMailbox 0 =
      fillMailbox message (n.can1.txMailbox 0) := CanType.store_self _ _ _
  have hother : ∀ j, (n.can1.store 0 (fillMailbox message (n.can1.txMailbox 0))).tmef j =
      n.can1.tmef j := fun _ => rfl
  generalize n.can1.store 0 (fillMailbox message (n.can1.txMailbox 0)) = c at hfill hother ⊢
  have h1 : (c.request 0).tmef 1 = true :=
    (c.request_tmef 0 1).trans ((hother 1).trans h.empty.1)
  have h2 : (c.request 0).tmef 2 = true :=
    (c.request_tmef 0 2).trans ((hother 2).trans h.empty.2)
  have h0 : (c.request 0).tmef 0 = false := c.request_tmef 0 0
  refine ⟨⟨h1, h2⟩, nofun, fun r hr => ?_, fun hempty => ?_, fun _ =>
    ⟨c.request_tmtcf 0, n.calls, message, rfl, (h.sent (h.idle hpc)).1, n.can1.txMailbox 0, hfill⟩⟩
  · cases hr
    rfl
  · cases h0.symm.trans hempty

theorem canStep_poll {n : CanNode} (h : n.Exclusive) {r : Option (Fin 3)}
    (hpc : n.pc = .waiting r) (hs : canTransmitStatusGet n.can1 r = .successful) :
    ({ n with pc := .idle } : CanNode).Exclusive := by
  obtain rfl := h.waiting r hpc
  have h0 : n.can1.tmef 0 = true := by
    by_contra hbusy
    rw [status_pending (h.pending (Bool.eq_false_iff.mpr hbusy)).1] at hs
    cases hs
  refine ⟨h.empty, fun _ => h0, nofun, fun _ => ⟨(h.sent h0).1, fun hne => absurd rfl hne⟩,
    fun hbusy => ?_⟩
  dsimp only at hbusy
  rw [h0] at hbusy
  cases hbusy

theorem canStep_sent {n : CanNode} (h : n.Exclusive) {k : Fin 3} (hk : n.can1.tmef k = false) :
    ({ n with can1 := n.can1.complete k, bus := n.bus ++ [n.can1.txMailbox k] } :
      CanNode).Exclusive := by
  have hk0 : k = 0 := by
    fin_cases k
    · rfl
    · exact absurd (h.empty.1.symm.trans hk) (by decide)
    · exact absurd (h.empty.2.symm.trans hk) (by decide)
  subst hk0
  obtain ⟨-, calls, message, hcalls, hbus, hfilled⟩ := h.pending hk
  have h0 : (n.can1.complete 0).tmef 0 = true := n.can1.complete_tmef 0 0
  have h1 : (n.can1.complete 0).tmef 1 = true := (n.can1.complete_tmef 0 1).trans h.empty.1
  have h2 : (n.can1.complete 0).tmef 2 = true := (n.can1.complete_tmef 0 2).trans h.empty.2
  refine ⟨⟨h1, h2⟩, fun _ => h0, h.waiting, fun _ => ⟨?_, fun _ => n.can1.complete_status 0⟩,
    fun hbusy => ?_⟩
  · show List.Forall₂ Filled n.calls _
    rw [hcalls]
    exact List.rel_append hbus (.cons hfilled .nil)
  · cases h0.symm.trans hbusy

theorem canStep_exclusive (n : CanNode) (e : CanEvent) (h : n.Exclusive) :
    (canStep n e).Exclusive := by
  cases e with
  | send message =>
    rw [canStep]
    split_ifs with hpc
    · exact canStep_send n message h hpc
    · exact h
  | poll =>
    rw [canStep]
    cases hpc : n.pc with
    | idle => exact h
    | waiting r =>
      dsimp only
      split_ifs with hs
      · exact canStep_poll h hpc hs
      · exact h
  | sent k =>
    rw [canStep]
    split_ifs with hk
    · exact h
    · exact canStep_sent h (Bool.eq_false_iff.mpr hk)

/-- What the receiver reads of frames that were filled with messages. -/
theorem forall_received {messages : List CanTxMessage} {bus : List CanTxMailbox}
    (h : List.Forall₂ Filled messages bus) {rs : List CanFifoMailbox}
    (hr : List.Forall₂ Carries bus rs) (old : CanRxMessage) :
    List.Forall₂ Received messages (rs.map (canMessageReceive · old)) := by
  induction h generalizing rs with
  | nil =>
    cases hr
    exact .nil
  | cons hfill _ ih =>
    obtain ⟨t0, rfl⟩ := hfill
    cases hr with
    | cons hcarry hrest => exact .cons (fill_received hcarry old) (ih hrest)

/-- Once its mailbox has been sent, the loop of a call ends. -/
theorem busy_returns {n : CanNode} {k : Fin 3} (hk : n.can1.tmef k = false)
    (hpc : n.pc = .waiting (some k)) : (run canStep n [.sent k, .poll]).pc = .idle := by
  obtain ⟨h1, h2⟩ := n.can1.complete_status k
  have hsent : canStep n (.sent k) = { n with
      can1 := n.can1.complete k, bus := n.bus ++ [n.can1.txMailbox k] } :=
    if_neg (by rw [hk]; exact nofun)
  rw [run_cons, run_cons, run_nil, hsent, canStep, hpc]
  dsimp only
  rw [if_pos (status_successful h1 h2)]

theorem exclusive_returns {n : CanNode} (h : n.Exclusive) :
    (run canStep n [.sent 0, .poll]).pc = .idle := by
  cases h0 : n.can1.tmef 0 with
  | true =>
    rw [run_cons, run_cons, run_nil, show canStep n (.sent 0) = n from if_pos h0, canStep]
    cases hpc : n.pc with
    | idle => exact hpc
    | waiting r =>
      obtain rfl := h.waiting r hpc
      obtain ⟨h1, h2⟩ := (h.sent h0).2 (by rw [hpc]; exact nofun)
      dsimp only
      rw [if_pos (status_successful h1 h2)]
  | false =>
    cases hpc : n.pc with
    | idle => cases h0.symm.trans (h.idle hpc)
    | waiting r =>
      obtain rfl := h.waiting r hpc
      exact busy_returns h0 hpc

/-- The bus leaves the calls alone. -/
theorem canStep_calls (n : CanNode) {e : CanEvent} (he : ∀ message, e ≠ .send message) :
    (canStep n e).calls = n.calls := by
  cases e with
  | send message => exact absurd rfl (he message)
  | poll =>
    rw [canStep]
    split
    · rfl
    · split_ifs <;> rfl
  | sent k =>
    rw [canStep]
    split_ifs <;> rfl

/-- A call, the transmission of its mailbox and the end of its loop. -/
theorem call_sent {n : CanNode} (h : n.Exclusive) (hpc : n.pc = .idle) (message : CanTxMessage)
    (old : CanRxMessage) :
    let n' := run canStep (startSend message n) [.sent 0, .poll]
    n'.pc = .idle ∧ ∀ rs, List.Forall₂ Carries n'.bus rs →
      List.Forall₂ Received (n.calls ++ [message]) (rs.map (canMessageReceive · old)) := by
  intro n'
  have hstart : (startSend message n).Exclusive := canStep_send n message h hpc
  have hidle : n'.pc = .idle := exclusive_returns hstart
  have h' : n'.Exclusive := run_invariant canStep_exclusive _ _ hstart
  have hcalls : n'.calls = n.calls ++ [message] := by
    have hpoll := canStep_calls (canStep (startSend message n) (.sent 0)) (e := .poll) nofun
    have hsent := canStep_calls (startSend message n) (e := .sent 0) nofun
    have hsend : (startSend message n).calls = n.calls ++ [message] := rfl
    exact hpoll.trans (hsent.trans hsend)
  refine ⟨hidle, fun rs hr => ?_⟩
  rw [← hcalls]
  exact forall_received (h'.sent (h'.idle hidle)).1 hr old

/-! ## Results -/

/-- **In order, each once.**  With no other user of CAN1, after any calls and any transmissions
of the bus: what the receiver reads are the messages of the calls in their order, but for the
last one while its call is still running, and that call can return. -/
theorem sent_in_order (txMailbox : Fin 3 → CanTxMailbox) (evs : List CanEvent)
    (old : CanRxMessage) :
    let n := run canStep (canReset txMailbox) evs
    (∃ done pending, n.calls = done ++ pending ∧ pending.length ≤ 1 ∧
      (n.pc = .idle → pending = []) ∧ ∀ rs, List.Forall₂ Carries n.bus rs →
        List.Forall₂ Received done (rs.map (canMessageReceive · old))) ∧
    (run canStep n [.sent 0, .poll]).pc = .idle := by
  intro n
  have h : n.Exclusive := run_invariant canStep_exclusive evs _ (canReset_exclusive txMailbox)
  refine ⟨?_, exclusive_returns h⟩
  cases h0 : n.can1.tmef 0 with
  | true =>
    exact ⟨n.calls, [], (List.append_nil _).symm, Nat.zero_le _, fun _ => rfl,
      fun rs hr => forall_received (h.sent h0).1 hr old⟩
  | false =>
    obtain ⟨-, calls, message, hcalls, hbus, -⟩ := h.pending h0
    refine ⟨calls, [message], hcalls, le_rfl, fun hpc => ?_,
      fun rs hr => forall_received hbus hr old⟩
    cases h0.symm.trans (h.idle hpc)

/-- So for the two senders: once a call has returned, its message has been read after those of
the calls before. -/
theorem senders_sent (txMailbox : Fin 3 → CanTxMailbox) (evs : List CanEvent)
    (old : CanRxMessage) :
    let n := run canStep (canReset txMailbox) evs
    let sid := run canStep (can1TransmitDataSid n) [.sent 0, .poll]
    let eid := run canStep (can1TransmitDataEid n) [.sent 0, .poll]
    n.pc = .idle →
      (sid.pc = .idle ∧ ∀ rs, List.Forall₂ Carries sid.bus rs →
        List.Forall₂ Received (n.calls ++ [sidMessage]) (rs.map (canMessageReceive · old))) ∧
      (eid.pc = .idle ∧ ∀ rs, List.Forall₂ Carries eid.bus rs →
        List.Forall₂ Received (n.calls ++ [eidMessage]) (rs.map (canMessageReceive · old))) := by
  intro n sid eid hpc
  have h : n.Exclusive := run_invariant canStep_exclusive evs _ (canReset_exclusive txMailbox)
  exact ⟨call_sent h hpc sidMessage old, call_sent h hpc eidMessage old⟩

theorem emptyMailbox_some {c : CanType} {k : Fin 3} (h : emptyMailbox c = some k) :
    c.tmef k = true := by
  unfold emptyMailbox at h
  split_ifs at h with h0 h1 h2 <;> cases h <;> assumption

theorem emptyMailbox_none {c : CanType} (h : emptyMailbox c = none) (k : Fin 3) :
    c.tmef k = false := by
  unfold emptyMailbox at h
  split_ifs at h with h0 h1 h2
  fin_cases k
  · exact Bool.eq_false_iff.mpr h0
  · exact Bool.eq_false_iff.mpr h1
  · exact Bool.eq_false_iff.mpr h2

theorem canStep_stuck (n : CanNode) (e : CanEvent) (h : n.pc = .waiting none) :
    (canStep n e).pc = .waiting none := by
  cases e with
  | send message => rw [canStep, if_neg (by rw [h]; exact nofun), h]
  | poll => simp [canStep, h, canTransmitStatusGet]
  | sent k =>
    rw [canStep]
    split_ifs <;> exact h

/-- A call can end. -/
def CanNode.CanReturn (n : CanNode) : Prop := ∃ evs : List CanEvent, (run canStep n evs).pc = .idle

theorem startSend_returns_iff (n : CanNode) (message : CanTxMessage) :
    (startSend message n).CanReturn ↔ ∃ k, n.can1.tmef k = true := by
  cases hempty : emptyMailbox n.can1 with
  | none =>
    have hpc : (startSend message n).pc = .waiting none := by
      simp only [startSend, canMessageTransmit, hempty]
    have hrun (evs : List CanEvent) : (run canStep (startSend message n) evs).pc = .waiting none :=
      run_invariant (I := fun n : CanNode => n.pc = .waiting none) canStep_stuck evs _ hpc
    refine iff_of_false ?_ ?_
    · rintro ⟨evs, hidle⟩
      cases (hrun evs).symm.trans hidle
    · rintro ⟨k, hk⟩
      cases hk.symm.trans (emptyMailbox_none hempty k)
  | some k =>
    refine iff_of_true ⟨[.sent k, .poll], ?_⟩ ⟨k, emptyMailbox_some hempty⟩
    rw [startSend_some hempty]
    refine busy_returns ?_ rfl
    exact (CanType.request_tmef _ k k).trans (if_pos rfl)

/-- **Return.**  Whatever state other users have left CAN1 in: a call of a sender, whatever its
message, can return if and only if it finds a mailbox empty.  Without one it tests the status
of a mailbox that does not exist, which stays failed. -/
theorem send_returns_iff (n : CanNode) :
    ((can1TransmitDataSid n).CanReturn ↔ ∃ k, n.can1.tmef k = true) ∧
      ((can1TransmitDataEid n).CanReturn ↔ ∃ k, n.can1.tmef k = true) ∧
      ∀ message, (startSend message n).CanReturn ↔ ∃ k, n.can1.tmef k = true :=
  ⟨startSend_returns_iff n sidMessage, startSend_returns_iff n eidMessage,
    startSend_returns_iff n⟩

end At32Foc
