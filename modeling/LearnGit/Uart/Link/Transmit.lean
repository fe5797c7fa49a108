import LearnGit.Uart.Link.Receive

/-!
# `LearnGit.Uart.Link.Transmit`: from an item to frames

`tx_data_info` of `link_proto.c` with `send_data_out`, `send_last_packet_to_other`,
`send_data_to_other` and `wait_for_answer`. The function blocks in `pthread_cond_timedwait`
after every frame it writes, so it is modelled by what it does between two such waits: `TxCall`
holds its locals and those of the sending loop it is in, `txSent` is the write, and `txAnswer`
is the way from the end of a wait to the next write or to the return.

`send_data_to_other` has no `return` on its successful path. The model takes its value there as
not negative, so that the caller goes on to wait. A write that fails is left out.
-/

set_option autoImplicit false

namespace LearnGit.Uart.Link

def MAX_TRY_SEND_NUM : Nat := 20

/-- What `wait_for_answer` returns. -/
inductive TransResult where
  | ok
  | answerError
  | again
  | cancleByOther
  | outTime
  | failed
  deriving DecidableEq, Repr

/-- How `pthread_cond_timedwait` ends: 0, `ETIMEDOUT`, or another error. -/
inductive CondWait where
  | signalled
  | timedOut
  | error
  deriving DecidableEq, Repr

/-- `check_packet_info`, true for the return value 0. -/
def checkPacketInfo (getInfo srcInfo : ProPacketInfo) : Bool :=
  srcInfo.devId == getInfo.devId && srcInfo.num == getInfo.num

/-- `wait_for_answer` after the wait ended with `ret`, with the answer in `pkt_info_table[0]`. -/
def waitForAnswer (pgetPacketInfo psrcPacketInfo : ProPacketInfo) (ret : CondWait) : TransResult :=
  match ret with
  | .signalled =>
    match pgetPacketInfo.cmd with
    | .nak => .again
    | .can => .cancleByOther
    | .ack => if checkPacketInfo pgetPacketInfo psrcPacketInfo then .ok else .answerError
    -- No branch of the source returns here, and the function ends with `return 0`.
    | _ => .ok
  | .timedOut => .outTime
  | .error => .failed

/-- The locals of `tx_data_info` and of the sending loop it is in: the packet, the rest of the
data with its length and the packet number, whether the loop is the one of
`send_last_packet_to_other`, and how often it may still send. -/
structure TxCall where
  pktInfo : ProPacketInfo
  pdata : List Byte
  dataLen : Int
  packetNum : Nat
  last : Bool
  tries : Nat
  deriving DecidableEq, Repr

/-- The locals before the loop. `data_len` is an `int`, and `length` an `unsigned int`. -/
def txInit (devId : Fin 8) (data : List Byte) : TxCall where
  pktInfo := { devId := devId, cmd := .sof, num := 0, data := [] }
  pdata := data
  dataLen := Int.bmod data.length (2 ^ 32)
  packetNum := 0
  last := false
  tries := 0

/-- The body of the loop of `tx_data_info`, up to the first write of `send_data_out`. -/
def txSegment (c : TxCall) : TxCall :=
  let packetNum := nextPktNum c.packetNum
  let (pktInfo, ret) := feedDataInpacket c.pktInfo c.dataLen c.pdata
  { pktInfo := { pktInfo with num := Fin.ofNat 4 packetNum }
    pdata := c.pdata.drop ret
    dataLen := c.dataLen - ret
    packetNum := packetNum
    last := false
    tries := 3 }

/-- `send_last_packet_to_other`, up to its first write. -/
def txLast (c : TxCall) : TxCall :=
  { c with
    pktInfo := { c.pktInfo with
      cmd := .eof
      num := Fin.ofNat 4 (nextPktNum c.packetNum)
      data := [TTY_ANSWER_DATA] }
    last := true
    tries := MAX_TRY_SEND_NUM }

/-- The `while(data_len)` of `tx_data_info`: the next packet to send. -/
def txLoop (c : TxCall) : TxCall := if c.dataLen ≠ 0 then txSegment c else txLast c

/-- The call `tx_data_info` up to its first write. -/
def txStart (devId : Fin 8) (data : List Byte) : TxCall := txLoop (txInit devId data)

/-- The frame `send_data_to_other` writes. -/
def TxCall.frame (c : TxCall) : List Byte := proPackData c.pktInfo

/-- The locals after a write. -/
def txSent (c : TxCall) : TxCall := { c with tries := c.tries - 1 }

/-- What `tx_data_info` does next: write a packet, or return. -/
inductive TxPc where
  | send (c : TxCall)
  | done (ret : Int)
  deriving DecidableEq, Repr

/-- From the return of `wait_for_answer` to the next write or to the return. -/
def txAnswer (c : TxCall) : TransResult → TxPc
  | .ok =>
    if c.last then .done 0
    else
      -- Every segment but the first is a `tx` packet.
      let cmd := if c.pktInfo.cmd = .sof then .tx else c.pktInfo.cmd
      .send (txLoop { c with pktInfo := { c.pktInfo with cmd := cmd } })
  -- The same packet again, while the loop has tries left.
  | .answerError | .again | .outTime => if c.tries = 0 then .done (-1) else .send c
  | .failed => .done (-1)
  | .cancleByOther => .done (-2)

/-- The packets `tx_data_info` sends from `c` on when each is acknowledged at once. It is `none`
when more than `rounds` packets are sent. -/
def txAcked : Nat → TxCall → Option (List ProPacketInfo)
  | 0, _ => none
  | rounds + 1, c =>
    let ack := answerPacket c.pktInfo.devId c.pktInfo.num .ack
    match txAnswer (txSent c) (waitForAnswer ack c.pktInfo .signalled) with
    | .done _ => some [c.pktInfo]
    | .send next => (txAcked rounds next).map (c.pktInfo :: ·)

end LearnGit.Uart.Link
