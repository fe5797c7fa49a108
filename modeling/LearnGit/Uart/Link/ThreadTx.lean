import LearnGit.Lib.Machine
import LearnGit.Uart.Link.World

/-!
# `LearnGit.Uart.Link.ThreadTx`: the transmitting thread and its callers

`thread_tx`, any number of `link_send` calls and any number of `link_clear_all_list` calls as
one machine. Each critical section on `mutex_tx_list` is one step. A `link_send` call has only
one, so the whole call is one step. A `link_clear_all_list` call has ten, one for each list, and
other steps may come between them: a running call is the index of its next list.

`tx_data_info` does not touch the lists. Its return value is a parameter of the step, and
`portClosed` stands for `ttyS0 <= 0`.

`sent` and `removed` are a record that no step looks at. For each destination they hold the
items given to `link_send`, in the order of the critical sections, and the items taken off the
list, in the order in which they left it.
-/

set_option autoImplicit false

namespace LearnGit.Uart.Link

open LearnGit.Lib

/-- Where `thread_tx` stands. `idx` is its loop variable and `pdataInfo` the item it holds. -/
inductive ThreadTxPc where
  /-- before `fetch_from_list_header(&list_tx[idx])` -/
  | fetch (idx : Nat)
  /-- in `tx_data_info(pdata_info)` -/
  | transmit (idx : Nat) (pdataInfo : Ptr)
  /-- before `clear_tx_list(idx)`, after `tx_data_info` returned -1 -/
  | clear (idx : Nat) (pdataInfo : Ptr)
  /-- before the marks are set, after `tx_data_info` returned -1 (`failed`) or -2 -/
  | mark (idx : Nat) (pdataInfo : Ptr) (failed : Bool)
  /-- before the item is freed -/
  | release (idx : Nat) (pdataInfo : Ptr)
  /-- before the check that all lists are empty -/
  | check
  /-- in the wait for `tx_alive` -/
  | idle
  deriving DecidableEq, Repr

/-- How an item left its list: for transmission, or in `clear_tx_list`. -/
inductive Fate where
  | taken
  | cleared
  deriving DecidableEq, Repr

/-- The state of the machine. -/
structure TxState where
  world : World
  pc : ThreadTxPc
  /-- The running `link_clear_all_list` calls, each with its loop variable. -/
  clears : List Nat
  sent : Nat → List (Ptr × Item)
  removed : Nat → List ((Ptr × Item) × Fate)

/-- The node at `p` with its item. -/
def entryAt (heap : Ptr → Option ProDataInfo) (p : Ptr) : Option (Ptr × Item) :=
  (itemAt heap p).map fun item => (p, item)

/-- The content of `list_tx[idx]`. -/
def txQueue (w : World) (idx : Nat) : List (Ptr × Item) :=
  (walk w.heap w.brk (w.listTx idx).header).filterMap (entryAt w.heap)

namespace TxState

def init : TxState where
  world := World.init
  pc := .fetch 0
  clears := []
  sent := fun _ => []
  removed := fun _ => []

/-- The items have left `list_tx[idx]`. -/
def remove (s : TxState) (idx : Nat) (items : List (Ptr × Item)) (fate : Fate) : TxState :=
  { s with
    removed := Function.update s.removed idx (s.removed idx ++ items.map fun x => (x, fate)) }

/-- The items of a destination that left the list in one way. -/
def gone (s : TxState) (fate : Fate) (idx : Nat) : List (Ptr × Item) :=
  ((s.removed idx).filter fun x => x.2 = fate).map Prod.fst

end TxState

/-- The critical section of `fetch_from_list_header` in `thread_tx`. -/
def fetchSection (w : World) (idx : Nat) : Option (World × Option Ptr) := do
  let w ← w.lock .txList
  let (w, pdataInfo) ← fetchFromListHeader w (.tx idx)
  return (w.unlock .txList, pdataInfo)

/-- The marks `thread_tx` sets under `mutex_listen` for the item `p`. -/
def markSection (w : World) (p : Ptr) (failed portClosed : Bool) : Option World := do
  let w ← w.lock .listen
  let n ← w.heap p
  let bit := (1 : UInt16) <<< UInt16.ofNat n.devId
  let w := { w with
    markE := if failed then w.markE ||| bit else w.markE
    markW := if failed || portClosed then w.markW ||| bit else w.markW
    inListen := false }
  return w.unlock .listen

/-- The critical section after the ten lists: `tx_alive` is cleared when all are empty. -/
def checkSection (w : World) : Option (World × Bool) := do
  let w ← w.lock .txList
  let empty := (List.range MAX_EXTBOARD).all fun num => (w.listTx num).header.isNone
  let w := if empty then { w with txAlive := false } else w
  return (w.unlock .txList, empty)

/-- One look at `tx_alive` in the wait. -/
def pollSection (w : World) : Option (World × Bool) := do
  let w ← w.lock .txList
  return (w.unlock .txList, w.txAlive)

/-- The next step of `thread_tx`. `ret` is what `tx_data_info` returns if this is the call that
ends. -/
def threadTxStep (s : TxState) (ret : Int) (portClosed : Bool) : Option TxState :=
  match s.pc with
  | .fetch idx => do
    let (w, pdataInfo) ← fetchSection s.world idx
    match pdataInfo with
    | some p =>
      let s := s.remove idx (entryAt w.heap p).toList .taken
      return { s with world := w, pc := .transmit idx p }
    | none =>
      return { s with
        world := w, pc := if idx + 1 < MAX_EXTBOARD then .fetch (idx + 1) else .check }
  | .transmit idx p =>
    if ret = -1 then some { s with pc := .clear idx p }
    else if ret = -2 then some { s with pc := .mark idx p false }
    else some { s with pc := .release idx p }
  | .clear idx p => do
    let w ← clearSection s.world idx
    let s := s.remove idx (txQueue s.world idx) .cleared
    return { s with world := w, pc := .mark idx p true }
  | .mark idx p failed => do
    let w ← markSection s.world p failed portClosed
    return { s with world := w, pc := .release idx p }
  -- The inner loop goes on with the same list until it is empty.
  | .release idx p => some { s with world := s.world.free p, pc := .fetch idx }
  | .check => do
    let (w, empty) ← checkSection s.world
    return { s with world := w, pc := if empty then .idle else .fetch 0 }
  | .idle => do
    let (w, alive) ← pollSection s.world
    return { s with world := w, pc := if alive then .fetch 0 else .idle }

/-- A step of the machine. -/
inductive TxEvent where
  | threadTx (ret : Int) (portClosed : Bool)
  | linkSend (mallocOk dataOk : Bool) (dst : Fin MAX_EXTBOARD) (buf : Option (List Byte))
  /-- A call of `link_clear_all_list` begins. -/
  | linkClearAllList
  /-- The `k`-th running call of `link_clear_all_list` clears its next list. -/
  | clearNext (k : Nat)
  deriving DecidableEq, Repr

/-- The step function of the machine. -/
def txStep (s : TxState) : TxEvent → Option TxState
  | .threadTx ret portClosed => threadTxStep s ret portClosed
  | .linkSend mallocOk dataOk dst buf => do
    let (w, _) ← linkSend s.world mallocOk dataOk dst.val buf
    -- The node of the call is at the address that was free before, if there is one.
    let item := (entryAt w.heap s.world.brk).toList
    return { s with
      world := w, sent := Function.update s.sent dst.val (s.sent dst.val ++ item) }
  | .linkClearAllList => some { s with clears := s.clears ++ [0] }
  | .clearNext k => do
    let i ← s.clears[k]?
    let w ← clearSection s.world i
    let s := s.remove i (txQueue s.world i) .cleared
    return { s with
      world := w
      clears := if i + 1 < MAX_EXTBOARD then s.clears.set k (i + 1) else s.clears.eraseIdx k }

/-- `thread_tx` and its callers from start-up on, with their steps in any order. -/
def txMachine : Machine TxState TxEvent where
  init := TxState.init
  step := txStep

end LearnGit.Uart.Link
