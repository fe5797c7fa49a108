import LearnGit.Lib.Machine
import LearnGit.Uart.Link.Transmit

/-!
# `LearnGit.Uart.Link.StopAndWait`: a sender, a receiver and two lines

The link as a system. The sender calls `tx_data_info` on one item after another, for device 1.
The receiver runs `deal_with_indata` on what arrives and writes its answers. Each direction is a
line that delivers whole frames in order, and may lose any of them at any time.

On the sender's side two threads meet at `tx_sec_wind`. `thread_tx` holds this mutex during the
whole call and gives it up only inside `pthread_cond_timedwait`. `thread_rx` stores an answer in
`pkt_info_table[0]` without the mutex, and then needs it to signal. So an answer is taken in one
step (`takeAnswer`) and signalled in another, which waits while `thread_tx` is not waiting. A
signal that no one waits for is lost. A woken `thread_tx` reads `pkt_info_table[0]` in a step of
its own, after which another answer may stand there.

Frames carry a stamp that no step looks at: the number of the packet, over all calls, that the
frame was written for, or that it answers. The stamps, the list at the start of a call and the
items passed are there to state what is proved.
-/

set_option autoImplicit false

namespace LearnGit.Uart.Link

open LearnGit.Lib

/-- A frame on a line. -/
structure Flight where
  bytes : List Byte
  stamp : Nat
  deriving DecidableEq, Repr

/-- Where `thread_tx` stands: outside a call with the value of the last one, about to write,
in `pthread_cond_timedwait`, or signalled there and not yet running. -/
inductive SenderPc where
  | returned (ret : Option Int)
  | ready (c : TxCall)
  | waiting (c : TxCall)
  | woken (c : TxCall)
  deriving DecidableEq, Repr

/-- The state of the link. -/
structure LinkState where
  receiver : World
  dataLine : List Flight
  ackLine : List Flight
  pc : SenderPc
  pktInfoTable0 : ProPacketInfo
  /-- `thread_rx` has stored an answer and not yet signalled. -/
  pending : Bool
  /-- The stamp of the packet being sent, of the first one of this call, and of the packet that
  `pktInfoTable0` answers. -/
  stamp : Nat
  callStart : Nat
  tableStamp : Nat
  /-- The item of this call, and all items passed so far. -/
  item : List Byte
  passed : List (List Byte)
  /-- The receiver when the call began. -/
  atStart : World

namespace LinkState

def init : LinkState where
  receiver := World.init
  dataLine := []
  ackLine := []
  pc := .returned none
  pktInfoTable0 := World.init.pktInfoTable0
  pending := false
  stamp := 0
  callStart := 0
  tableStamp := 0
  item := []
  passed := []
  atStart := World.init

end LinkState

/-- A step of the link. -/
inductive LinkEvent where
  | call (data : List Byte)
  | send
  | timeout
  | takeAnswer
  | signal
  | wake
  | deliver
  | loseData (i : Nat)
  | loseAnswer (i : Nat)
  deriving DecidableEq, Repr

/-- `deal_with_indata` on an answer, up to the lock of `tx_sec_wind`: what it stores in
`pkt_info_table[0]`. -/
def takeAnswer (pbuffer : List Byte) : Option ProPacketInfo := do
  let dataInfo ← proUnpackPkg pbuffer (pbuffer.getD 2 0).toNat
  if crcMatches pbuffer dataInfo then
    match dataInfo.cmd with
    | .ack | .nak | .can => some dataInfo
    | _ => none
  else none

/-- `tx_data_info` goes on after `wait_for_answer` returned `r`. A new packet gets a new
stamp. -/
def resume (s : LinkState) (c : TxCall) (r : TransResult) : LinkState :=
  match txAnswer c r with
  | .done ret => { s with pc := .returned (some ret) }
  | .send c => { s with pc := .ready c, stamp := if r = .ok then s.stamp + 1 else s.stamp }

/-- The step function of the link. -/
def linkStep (s : LinkState) : LinkEvent → Option LinkState
  | .call data =>
    match s.pc with
    | .returned _ =>
      if data ≠ [] ∧ data.length < 2 ^ 32 then
        some { s with
          pc := .ready (txStart 1 data)
          stamp := s.stamp + 1
          callStart := s.stamp + 1
          item := data
          passed := s.passed ++ [data]
          atStart := s.receiver }
      else none
    | _ => none
  | .send =>
    match s.pc with
    | .ready c =>
      some { s with pc := .waiting (txSent c), dataLine := s.dataLine ++ [⟨c.frame, s.stamp⟩] }
    | _ => none
  | .timeout =>
    match s.pc with
    | .waiting c => some (resume s c (waitForAnswer s.pktInfoTable0 c.pktInfo .timedOut))
    | _ => none
  | .takeAnswer =>
    match s.pending, s.ackLine with
    -- `thread_rx` is one thread: it signals before it looks at the next frame.
    | false, f :: rest => do
      let info ← takeAnswer f.bytes
      return { s with
        pktInfoTable0 := info, tableStamp := f.stamp, pending := true, ackLine := rest }
    | _, _ => none
  | .signal =>
    match s.pending, s.pc with
    -- While `thread_tx` is `ready` it holds `tx_sec_wind`, and the signal cannot be given.
    | true, .waiting c => some { s with pc := .woken c, pending := false }
    | true, .woken _ | true, .returned _ => some { s with pending := false }
    | _, _ => none
  | .wake =>
    match s.pc with
    | .woken c => some (resume s c (waitForAnswer s.pktInfoTable0 c.pktInfo .signalled))
    | _ => none
  | .deliver =>
    match s.dataLine with
    | f :: rest => do
      let (w, _) ← dealWithIndata s.receiver Alloc.ok f.bytes
      -- The answers are what this call has written.
      let answers := w.ttyOut.drop s.receiver.ttyOut.length
      return { s with
        receiver := w
        dataLine := rest
        ackLine := s.ackLine ++ answers.map fun bytes => ⟨bytes, f.stamp⟩ }
    | [] => none
  | .loseData i =>
    if i < s.dataLine.length then some { s with dataLine := s.dataLine.eraseIdx i } else none
  | .loseAnswer i =>
    if i < s.ackLine.length then some { s with ackLine := s.ackLine.eraseIdx i } else none

/-- The link from start-up on, with its steps in any order. -/
def link : Machine LinkState LinkEvent where
  init := LinkState.init
  step := linkStep

end LearnGit.Uart.Link
