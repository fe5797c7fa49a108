import LearnGit.Lib.Machine
import LearnGit.Uart.Link.Receive

/-!
# `LearnGit.Uart.Link.ThreadRx`: the receive loop

`thread_rx` of `link_proto.c` with `check_buffer` and `get_data_head`. The loop keeps the bytes
read so far at the front of `read_buffer`, looks for the start byte, and hands the buffer to
`deal_with_indata` once a whole frame is there.

The array `read_buffer` is `content ++ rest`, and `len` is the length of `content`. The one
value of `len` this leaves out is -1: it arises when `read_port` fails on an empty buffer, and
`check_buffer` then calls `memcpy` with the size -1. The iteration is `none` there.
-/

set_option autoImplicit false

namespace LearnGit.Uart.Link

open LearnGit.Lib

def CMD_BUFFER_LEN : Nat := 1024
def PRO_PKT_START_CHAR : Byte := 0xAA

/-- What `read_port` returns: the bytes read (none of them for the return value 0), or -1. -/
inductive ReadResult where
  | bytes (bs : List Byte)
  | error
  deriving DecidableEq, Repr

/-- The locals of `thread_rx`, and the frames handed to `deal_with_indata` so far. -/
structure RxLoop where
  content : List Byte
  rest : List Byte
  handed : List (List Byte)
  deriving DecidableEq, Repr

namespace RxLoop

/-- The locals before the loop. -/
def init : RxLoop := ⟨[], List.replicate CMD_BUFFER_LEN 0, []⟩

/-- `len`. -/
def len (s : RxLoop) : Int := s.content.length

end RxLoop

/-- `struct data_info_header`. -/
structure DataInfoHeader where
  devId : Fin 8
  cmd : ProtocolCmd
  num : Fin 4
  length : Nat
  deriving DecidableEq, Repr

/-- `check_buffer`: the buffer from its first start byte on, moved to the front. `none` is the
return value -1, after which `len` is 0. -/
def checkBuffer (s : RxLoop) : Option RxLoop :=
  let i := s.content.idxOf PRO_PKT_START_CHAR
  if i = s.content.length then none
  else
    let len := s.content.length - i
    some { s with content := s.content.drop i, rest := s.content.drop len ++ s.rest }

/-- `get_data_head`. `none` is the return value -1: another device, or no command. -/
def getDataHead (pbuffer : List Byte) : Option DataInfoHeader :=
  let data := pbuffer.getD 1 0
  let head : DataInfoHeader :=
    { devId := Fin.ofNat 8 ((data >>> 5) &&& (0x07 : Byte)).toNat
      cmd := ProtocolCmd.ofByte (data >>> 2)
      num := Fin.ofNat 4 (data &&& 0x03).toNat
      length := (pbuffer.getD 2 0).toNat }
  if head.devId ≠ 1 then none
  else
    match head.cmd with
    | .ack | .nak | .can | .sof | .tx | .eof => some head
    | .timeout | .invalid => none

/-- The frame at the front of a buffer: the header and as many bytes as its length byte says. -/
def frameOf (pbuffer : List Byte) : List Byte :=
  pbuffer.take (PRO_IDX_PKT_HEADER_LEN + (pbuffer.getD 2 0).toNat)

/-- An iteration of `thread_rx` after `len += ret`. -/
def threadRxCheck (s : RxLoop) : RxLoop :=
  match checkBuffer s with
  | none => { s with content := [], rest := s.content ++ s.rest }
  | some s =>
    if s.content.length < PRO_IDX_PKT_HEADER_LEN then s
    else
      match getDataHead s.content with
      -- `len` stays. The next iteration searches behind the byte that was overwritten.
      | none => { s with content := s.content.set 0 0x00 }
      | some head =>
        if s.content.length < head.length + PRO_IDX_PKT_HEADER_LEN then s
        else
          -- What was read behind the frame is dropped with it.
          { content := []
            rest := List.replicate CMD_BUFFER_LEN 0
            handed := s.handed ++ [frameOf (s.content ++ s.rest)] }

/-- One iteration of `thread_rx`, from the call of `read_port` on. -/
def threadRxIter (s : RxLoop) : ReadResult → Option RxLoop
  | .bytes [] => some s
  | .bytes (b :: bs) =>
    some (threadRxCheck
      { s with content := s.content ++ b :: bs, rest := s.rest.drop (b :: bs).length })
  | .error =>
    if h : s.content = [] then none
    else
      some (threadRxCheck
        { s with content := s.content.dropLast, rest := s.content.getLast h :: s.rest })

/-- The loop as a machine. A read returns at most as many bytes as it asks for, which is
`PRO_MAX_BUFFER_SIZE - len`. The state `none` is reached through undefined behaviour and is
final. -/
def threadRx : Machine (Option RxLoop) ReadResult where
  init := some RxLoop.init
  step
    | none, _ => none
    | some s, .error => some (threadRxIter s .error)
    | some s, .bytes bs =>
      if s.content.length + bs.length ≤ PRO_MAX_BUFFER_SIZE then some (threadRxIter s (.bytes bs))
      else none

/-! ### Accepted packets -/

/-- `read_buffer` as an iteration gives it to `deal_with_indata`, when it does. Behind the frame
stands what was read with it, and what was left there before. -/
def indataBuffer (s : RxLoop) : Option (List Byte) := do
  let s ← checkBuffer s
  if s.content.length < PRO_IDX_PKT_HEADER_LEN then none
  else
    let head ← getDataHead s.content
    if s.content.length < head.length + PRO_IDX_PKT_HEADER_LEN then none
    else some (s.content ++ s.rest)

/-- The locals behind `len += ret`. There are none where the iteration ends before. -/
def afterRead (s : RxLoop) : ReadResult → Option RxLoop
  | .bytes [] => none
  | .bytes (b :: bs) =>
    some { s with content := s.content ++ b :: bs, rest := s.rest.drop (b :: bs).length }
  | .error =>
    if h : s.content = [] then none
    else some { s with content := s.content.dropLast, rest := s.content.getLast h :: s.rest }

/-- `read_buffer` as the iteration with this read passes it to `deal_with_indata`. -/
def passedBuffer (s : RxLoop) (r : ReadResult) : Option (List Byte) :=
  (afterRead s r).bind indataBuffer

/-- The packet that `deal_with_indata` takes from its buffer, when the CRC is right. -/
def acceptPacket (pbuffer : List Byte) : Option ProPacketInfo := do
  let dataInfo ← proUnpackPkg pbuffer (pbuffer.getD 2 0).toNat
  if crcMatches pbuffer dataInfo then some dataInfo else none

/-- The packets accepted while these reads arrive. -/
def acceptedPackets : RxLoop → List (List Byte) → List ProPacketInfo
  | _, [] => []
  | s, [] :: reads => acceptedPackets s reads
  | s, (b :: bs) :: reads =>
    let s := { s with content := s.content ++ b :: bs, rest := s.rest.drop (b :: bs).length }
    ((indataBuffer s).bind acceptPacket).toList ++ acceptedPackets (threadRxCheck s) reads

end LearnGit.Uart.Link
