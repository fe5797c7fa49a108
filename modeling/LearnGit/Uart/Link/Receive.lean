import LearnGit.Uart.Link.World

/-!
# `LearnGit.Uart.Link.Receive`: from a frame to an item in `list_rx`

`deal_with_indata` of `link_proto.c` and what it calls: the CRC check, the answers, and the
three packet handlers that assemble one item per device in `DataItemList` and append it
to `list_rx` at the `eof` packet.

`DataItemList` and `PktNum` are indexed by `dev_id - 1`. For `dev_id = 0` the index is out of
range, and the handlers return `none`. `get_data_head` lets only device 1 through.
-/

set_option autoImplicit false

namespace LearnGit.Uart.Link

/-- The outcomes of the allocations a packet handler makes. A `realloc` to the size 0 is one of
them, and C leaves its outcome open. -/
structure Alloc where
  malloc : Bool
  realloc : Bool
  deriving DecidableEq, Repr

/-- Every allocation succeeds. -/
def Alloc.ok : Alloc := ⟨true, true⟩

/-- The packet that answers a packet of device `devId` with number `packetNum`. -/
def answerPacket (devId : Fin 8) (packetNum : Fin 4) (cmd : ProtocolCmd) : ProPacketInfo :=
  { devId := devId, cmd := cmd, num := packetNum,
    data := List.replicate TTY_ANSWER_DATA_LEN TTY_ANSWER_DATA }

/-- `send_data_to_other` and the write of the answers: pack under `mutex_tx_buf`, then write. -/
def writePacket (w : World) (pkt : ProPacketInfo) : Option World := do
  let w ← w.lock .txBuf
  return (w.write (proPackData pkt)).unlock .txBuf

/-- `send_answer_packet`. -/
def sendAnswerPacket (w : World) (devId : Fin 8) (packetNum : Fin 4) (cmd : ProtocolCmd) :
    Option World :=
  writePacket w (answerPacket devId packetNum cmd)

/-- `send_answer_nack`. -/
def sendAnswerNack (w : World) (devId : Fin 8) : Option World :=
  writePacket w { devId := devId, cmd := .nak, num := 0, data := [TTY_ANSWER_DATA] }

/-- The packet number after `n`. -/
def nextPktNum (n : Nat) : Nat := if n + 1 = MAX_PACKET_NUM then MIN_PACKET_NUM else n + 1

/-- The steps that the `sof` and `tx` handlers share once the number is the expected one:
grow the item by the payload, step the expected number, answer. -/
def takePayload (w : World) (alloc : Alloc) (idx : Nat) (pItem : Ptr) (ppkt : ProPacketInfo) :
    Option (World × Int) :=
  if alloc.realloc then do
    let w ← w.modifyNode pItem fun n => { n with data := n.data ++ ppkt.data }
    let w := w.setPktNum idx (nextPktNum (w.pktNum idx))
    let w ← sendAnswerPacket w ppkt.devId ppkt.num .ack
    return (w, 0)
  else do
    -- The item is given up, and the sender is told so.
    let w := (w.free pItem).setItem idx none
    let w ← sendAnswerPacket w ppkt.devId ppkt.num .can
    return (w, -1)

/-- The part of `deal_with_sof_packet` that follows once the item is empty: the expected
number restarts at 1, and the payload is taken when the packet has that number. -/
def sofStart (w : World) (alloc : Alloc) (idx : Nat) (pItem : Ptr) (ppkt : ProPacketInfo) :
    Option (World × Int) :=
  let w := w.setPktNum idx MIN_PACKET_NUM
  if w.pktNum idx ≠ ppkt.num.val then do
    let w ← sendAnswerPacket w ppkt.devId ppkt.num .ack
    return (w, 0)
  else takePayload w alloc idx pItem ppkt

/-- `deal_with_sof_packet`. -/
def dealWithSofPacket (w : World) (alloc : Alloc) (ppkt : ProPacketInfo) : Option (World × Int) :=
  match ppkt.devId.val with
  | 0 => none
  | idx + 1 =>
    match w.dataItemList idx with
    | none =>
      if alloc.malloc then
        let pItem := w.brk
        let w := (w.malloc { devId := idx + 1, data := [] }).setItem idx (some pItem)
        sofStart w alloc idx pItem ppkt
      else do
        let w ← sendAnswerPacket w ppkt.devId ppkt.num .can
        return (w, -1)
    | some pItem => do
      -- A half-received item is thrown away, and its node is used again.
      let w ← w.modifyNode pItem fun _ => { devId := idx + 1, data := [] }
      sofStart w alloc idx pItem ppkt

/-- The counter and the mark of `deal_with_eof_packet`: one item of `devId` more. -/
def eofCount (w : World) (devId : Nat) : World :=
  { w with
    devCntR := Function.update w.devCntR devId (w.devCntR devId + 1)
    markR := w.markR ||| ((1 : UInt16) <<< UInt16.ofNat devId)
    inListen := false }

/-- `deal_with_eof_packet`. -/
def dealWithEofPacket (w : World) (ppkt : ProPacketInfo) : Option (World × Int) :=
  match ppkt.devId.val with
  | 0 => none
  | idx + 1 =>
    match w.dataItemList idx with
    | none => do
      let w ← sendAnswerPacket (w.setPktNum idx MIN_PACKET_NUM) ppkt.devId ppkt.num .ack
      return (w, -1)
    | some pItem => do
      -- The number of an `eof` packet is not compared with the expected one.
      let w ← w.lock .rxList
      let w ← appendToListTail w .rx pItem
      let w ← w.lock .listen
      let w := (eofCount w (idx + 1)).unlock .listen
      let w := (w.setItem idx none).unlock .rxList
      let w ← sendAnswerPacket w ppkt.devId ppkt.num .ack
      return (w, 0)

/-- `deal_with_tx_packet`. -/
def dealWithTxPacket (w : World) (alloc : Alloc) (ppkt : ProPacketInfo) : Option (World × Int) :=
  match ppkt.devId.val with
  | 0 => none
  | idx + 1 =>
    match w.dataItemList idx with
    | none => do
      let w ← sendAnswerPacket (w.setPktNum idx MIN_PACKET_NUM) ppkt.devId ppkt.num .ack
      return (w, -1)
    | some pItem =>
      if w.pktNum idx ≠ ppkt.num.val then do
        -- The packet is dropped, and it is answered as if it had been taken.
        let w ← sendAnswerPacket w ppkt.devId ppkt.num .ack
        return (w, 0)
      else takePayload w alloc idx pItem ppkt

/-- `rx_data_info`. -/
def rxDataInfo (w : World) (alloc : Alloc) (ppkt : ProPacketInfo) : Option (World × Int) :=
  match ppkt.cmd with
  | .sof => dealWithSofPacket w alloc ppkt
  | .eof => dealWithEofPacket w ppkt
  | .tx => dealWithTxPacket w alloc ppkt
  | _ => some (w, 1)

/-- The CRC check of `deal_with_indata`: the CRC over the payload bytes against the one the
frame carries. -/
def crcMatches (pbuffer : List Byte) (dataInfo : ProPacketInfo) : Bool :=
  proGenCrc8 ((pbuffer.drop PRO_IDX_PKT_HEADER_LEN).take (pbuffer.getD 2 0).toNat)
    == dataInfo.crc8

/-- `deal_with_indata`. -/
def dealWithIndata (w : World) (alloc : Alloc) (pbuffer : List Byte) : Option (World × Int) := do
  let dataInfo ← proUnpackPkg pbuffer (pbuffer.getD 2 0).toNat
  if crcMatches pbuffer dataInfo then
    match dataInfo.cmd with
    | .ack | .nak | .can =>
      -- The answer is stored before the mutex is taken.
      let w := { w with pktInfoTable0 := dataInfo }
      let w ← w.lock .txSecWind
      let w := { w with signals := w.signals + 1 }
      return (w.unlock .txSecWind, 0)
    | .sof | .tx | .eof => rxDataInfo w alloc dataInfo
    | .timeout | .invalid => return (w, 0)
  else
    let w ← sendAnswerNack w 1
    return (w, -1)

end LearnGit.Uart.Link
