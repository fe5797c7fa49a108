import LearnGit.Uart.Link.Packet

/-!
# `LearnGit.Uart.Link.World`: the shared state of the link layer

The globals of `link_proto.c` and the functions that work on its two kinds of linked
list: `append_to_list_tail`, `fetch_from_list_header`, `clear_tx_list`, `link_send`,
`link_recv`, `link_listen` and `link_clear_all_list`.

A list node lives on a heap of addresses. A node owns its `data` buffer, so the buffer is
a field of the node. `malloc` hands out the address `brk` and never an address that was
handed out before, so a pointer that outlives its node reads `none`.

The functions return an `Option`. `none` means that the call does not return: it blocks on
a mutex its own thread holds, it follows a pointer that has no node, it indexes an array
out of range, or it walks a cyclic list for ever.

`held` is the set of mutexes of the thread that runs the call.
-/

set_option autoImplicit false

namespace LearnGit.Uart.Link

def MAX_EXTBOARD : Nat := 10

abbrev Ptr := Nat

/-- `pro_data_info_t`: a data item as a list node. `length` is the length of `data`. -/
structure ProDataInfo where
  devId : Nat
  data : List Byte
  pre : Option Ptr := none
  next : Option Ptr := none
  deriving DecidableEq, Repr

/-- `list_data_info_t`. -/
structure ListDataInfo where
  header : Option Ptr
  tail : Option Ptr
  deriving DecidableEq, Repr

/-- The mutexes of `link_proto.c` that its functions take. -/
inductive Mutex where
  | txBuf
  | listen
  | rxList
  | txList
  | txSecWind
  deriving DecidableEq, Repr

/-- Which list a function is called on: `&list_rx` or `&list_tx[i]`. -/
inductive ListRef where
  | rx
  | tx (i : Nat)
  deriving DecidableEq, Repr

/-- The globals of `link_proto.c`, the heap, the mutexes the running thread holds, the
frames written to the port, and the number of signals on `cnd_wait_to_tx_data`. -/
structure World where
  heap : Ptr → Option ProDataInfo
  brk : Ptr
  listRx : ListDataInfo
  listTx : Nat → ListDataInfo
  dataItemList : Nat → Option Ptr
  pktNum : Nat → Nat
  devCntR : Nat → UInt8
  markR : UInt16
  markW : UInt16
  markE : UInt16
  inListen : Bool
  txAlive : Bool
  pktInfoTable0 : ProPacketInfo
  signals : Nat
  held : Mutex → Bool
  ttyOut : List (List Byte)

namespace World

/-- The globals after `link_host_init` or `link_ext_init`. -/
def init : World where
  heap := fun _ => none
  brk := 0
  listRx := ⟨none, none⟩
  listTx := fun _ => ⟨none, none⟩
  dataItemList := fun _ => none
  pktNum := fun _ => 0
  devCntR := fun _ => 0
  markR := 0
  markW := 0
  markE := 0
  inListen := false
  txAlive := false
  pktInfoTable0 := { devId := 0, cmd := .ack, num := 0, data := [] }
  signals := 0
  held := fun _ => false
  ttyOut := []

/-- `pthread_mutex_lock`. A second lock by the thread that holds the mutex blocks. -/
def lock (w : World) (m : Mutex) : Option World :=
  if w.held m then none else some { w with held := Function.update w.held m true }

/-- `pthread_mutex_unlock`. -/
def unlock (w : World) (m : Mutex) : World :=
  { w with held := Function.update w.held m false }

/-- The node at `p` becomes `n`. -/
def setNode (w : World) (p : Ptr) (n : ProDataInfo) : World :=
  { w with heap := Function.update w.heap p (some n) }

/-- `malloc` of a node that is then filled with `n`. -/
def malloc (w : World) (n : ProDataInfo) : World :=
  { w with heap := Function.update w.heap w.brk (some n), brk := w.brk + 1 }

/-- `free(p->data); free(p)`. -/
def free (w : World) (p : Ptr) : World :=
  { w with heap := Function.update w.heap p none }

/-- A store through the pointer `p`. -/
def modifyNode (w : World) (p : Ptr) (f : ProDataInfo → ProDataInfo) : Option World :=
  match w.heap p with
  | none => none
  | some n => some (w.setNode p (f n))

/-- `DataItemList[idx] = p`. -/
def setItem (w : World) (idx : Nat) (p : Option Ptr) : World :=
  { w with dataItemList := Function.update w.dataItemList idx p }

/-- `PktNum[idx] = n`. -/
def setPktNum (w : World) (idx n : Nat) : World :=
  { w with pktNum := Function.update w.pktNum idx n }

/-- A frame is written to the port. -/
def write (w : World) (frame : List Byte) : World :=
  { w with ttyOut := w.ttyOut ++ [frame] }

/-- `*plist`. -/
def list (w : World) : ListRef → ListDataInfo
  | .rx => w.listRx
  | .tx i => w.listTx i

/-- `*plist = l`. -/
def setList (w : World) (plist : ListRef) (l : ListDataInfo) : World :=
  match plist with
  | .rx => { w with listRx := l }
  | .tx i => { w with listTx := Function.update w.listTx i l }

end World

/-! ### The linked lists -/

/-- `append_to_list_tail`. -/
def appendToListTail (w : World) (plist : ListRef) (pdataInfo : Ptr) : Option World :=
  let l := w.list plist
  match l.header with
  | none =>
    (w.setList plist ⟨some pdataInfo, some pdataInfo⟩).modifyNode pdataInfo
      fun n => { n with next := none, pre := none }
  | some _ => do
    -- `plist->tail` is trusted, whether or not the header leads to it.
    let tail ← l.tail
    let w ← w.modifyNode tail fun n => { n with next := some pdataInfo }
    let w ← w.modifyNode pdataInfo fun n => { n with pre := some tail, next := none }
    return w.setList plist { l with tail := some pdataInfo }

/-- `fetch_from_list_header`. -/
def fetchFromListHeader (w : World) (plist : ListRef) : Option (World × Option Ptr) :=
  let l := w.list plist
  match l.header with
  | none => some (w, none)
  | some pdataInfo => do
    let n ← w.heap pdataInfo
    -- The new header keeps its `pre`, which points to the node taken out.
    let w := w.setList plist ⟨n.next, if n.next = none then none else l.tail⟩
    let w ← w.modifyNode pdataInfo fun n => { n with next := none, pre := none }
    return (w, some pdataInfo)

/-- The loop of `clear_tx_list`. -/
def clearTxListLoop (idx : Nat) : Nat → World → Option World
  | 0, _ => none
  | rounds + 1, w => do
    let (w, pdataInfo) ← fetchFromListHeader w (.tx idx)
    match pdataInfo with
    | none => return w
    | some p => clearTxListLoop idx rounds (w.free p)

/-- `clear_tx_list`. Every round frees a node, and fewer than `brk + 1` nodes exist. -/
def clearTxList (w : World) (idx : Nat) : Option World :=
  clearTxListLoop idx (w.brk + 1) w

/-! ### Sending and receiving items -/

/-- `link_send`. `mallocOk` and `dataOk` are the outcomes of its two `malloc` calls.
`buf = none` is a NULL pointer. -/
def linkSend (w : World) (mallocOk dataOk : Bool) (dst : Int) (buf : Option (List Byte)) :
    Option (World × Int) :=
  match buf with
  | none => some (w, 0)
  | some buf =>
    if buf.length = 0 then some (w, 0)
    else if !mallocOk then some (w, -1)
    else if !dataOk then some (w, -2)
    else do
      let pdataInfo := w.brk
      let w := w.malloc { devId := (dst % 256).toNat, data := buf }
      let w ← w.lock .txList
      -- `dst` indexes `list_tx` unchecked.
      if 0 ≤ dst ∧ dst < MAX_EXTBOARD then
        let w ← appendToListTail w (.tx dst.toNat) pdataInfo
        let w := if w.txAlive then w else { w with txAlive := true }
        return (w.unlock .txList, 0)
      else none

/-- The search loop of `link_recv`: the first node from `p` on whose `dev_id` is `devId`. -/
def recvFind (heap : Ptr → Option ProDataInfo) (devId : Nat) : Nat → Option Ptr → Option (Option Ptr)
  | 0, _ => none
  | _ + 1, none => some none
  | rounds + 1, some p => do
    let n ← heap p
    if n.devId = devId then return some p else recvFind heap devId rounds n.next

/-- The pointer surgery of `link_recv` that takes the node `p` out of `list_rx`. -/
def recvUnlink (w : World) (p : Ptr) : Option World := do
  let n ← w.heap p
  match n.pre with
  | some pre =>
    match n.next with
    | some next => do
      let w ← w.modifyNode pre fun m => { m with next := some next }
      w.modifyNode next fun m => { m with pre := some pre }
    -- The last of several nodes: `list_rx.tail` stays as it is.
    | none => w.modifyNode pre fun m => { m with next := none }
  | none =>
    match n.next with
    | some next =>
      (w.setList .rx ⟨some next, w.listRx.tail⟩).modifyNode next fun m => { m with pre := none }
    | none => some (w.setList .rx ⟨none, none⟩)

/-- The counter and the mark of `link_recv`: one item of `devId` less. -/
def recvCount (w : World) (devId : Nat) : World :=
  { w with
    devCntR := Function.update w.devCntR devId (w.devCntR devId - 1)
    markR := if w.devCntR devId - 1 = 0 then w.markR &&& ~~~((1 : UInt16) <<< UInt16.ofNat devId)
      else w.markR }

/-- `link_recv`. The result `some p` is the return value 0 with `*ppdata = p`, and `none` is
the return value -1. The walk visits at most `brk` nodes unless the list is cyclic. -/
def linkRecv (w : World) (devId : Nat) : Option (World × Option Ptr) :=
  -- The list is looked at before the lock.
  if w.listRx.header = none then some (w, none)
  else do
    let w ← w.lock .rxList
    match ← recvFind w.heap devId (w.brk + 1) w.listRx.header with
    | some p =>
      let w ← w.lock .listen
      if devId < MAX_EXTBOARD then
        let w := recvCount w devId
        let w := w.unlock .listen
        let w ← recvUnlink w p
        return (w.unlock .rxList, some p)
      else none
    -- The loop ends without a match, and this path has no unlock.
    | none => return (w, none)

/-- `clear_tx_list` between the lock and the unlock of `mutex_tx_list`. -/
def clearSection (w : World) (idx : Nat) : Option World := do
  let w ← w.lock .txList
  let w ← clearTxList w idx
  return w.unlock .txList

/-- `link_clear_all_list`. -/
def linkClearAllList (w : World) : Option World :=
  (List.range MAX_EXTBOARD).foldlM clearSection w

/-! ### `link_listen` -/

/-- What a thread finds under `mutex_listen`: the marks and `in_listen` as the other
threads left them. -/
structure ListenView where
  markW : UInt16
  markR : UInt16
  markE : UInt16
  inListen : Bool
  deriving DecidableEq, Repr

/-- The number of bits set in a device set. -/
def bitCount (s : UInt16) : Nat :=
  ((List.range 16).filter fun i => (s >>> UInt16.ofNat i) &&& 1 ≠ 0).length

/-- One of the three checks of `link_listen`: the new content of `*devset` and how much
`ret` grows. -/
def listenCheck (devset : Option UInt16) (mark : UInt16) : Option UInt16 × Nat :=
  match devset with
  | none => (none, 0)
  | some s =>
    if s &&& mark ≠ 0 then (some (s &&& mark), bitCount (s &&& mark)) else (some s, 0)

/-- The three request sets of a call of `link_listen`; `none` is a NULL pointer. -/
structure DevSets where
  w : Option UInt16
  r : Option UInt16
  e : Option UInt16
  deriving DecidableEq, Repr

/-- The body of the `while` loop of `link_listen` up to its `return`. -/
def listenPass (sets : DevSets) (w : World) : DevSets × Nat :=
  let cw := listenCheck sets.w w.markW
  let cr := listenCheck sets.r w.markR
  let ce := listenCheck sets.e w.markE
  (⟨cw.1, cr.1, ce.1⟩, cw.2 + cr.2 + ce.2)

/-- `pthread_mutex_lock(&mutex_listen)`, after which the thread sees `v`. -/
def lockListen (w : World) (v : ListenView) : Option World := do
  let w ← w.lock .listen
  return { w with markW := v.markW, markR := v.markR, markE := v.markE, inListen := v.inListen }

/-- The polling loop of `link_listen`: it takes the mutex until `in_listen` is 0 and leaves
the loop with the mutex held. It still waits when the views run out. -/
def listenPoll : List ListenView → World → Option World
  | [], _ => none
  | v :: vs, w => do
    let w ← lockListen w v
    if w.inListen then listenPoll vs (w.unlock .listen) else return w

/-- `link_listen`. `v` and `vs` are what the thread finds at each lock of `mutex_listen`. -/
def linkListen (w : World) (sets : DevSets) (v : ListenView) (vs : List ListenView) :
    Option (World × DevSets × Nat) := do
  let w ← lockListen w v
  let (sets, ret) := listenPass sets w
  if ret ≠ 0 then return (w.unlock .listen, sets, ret)
  else
    -- Nothing is ready. Another thread clears `in_listen`, and the second pass returns in any case.
    let w := { w with inListen := true }
    let w ← listenPoll vs (w.unlock .listen)
    let (sets, ret) := listenPass sets w
    return (w.unlock .listen, sets, ret)

/-! ### Reading a list -/

/-- A data item without its list pointers. -/
structure Item where
  devId : Nat
  data : List Byte
  deriving DecidableEq, Repr

/-- The item a node carries. -/
def itemOf (n : ProDataInfo) : Item := ⟨n.devId, n.data⟩

/-- The item at an address. -/
def itemAt (heap : Ptr → Option ProDataInfo) (p : Ptr) : Option Item := (heap p).map itemOf

/-- The nodes the forward pointers lead to from `p`, at most `rounds` of them. -/
def walk (heap : Ptr → Option ProDataInfo) : Nat → Option Ptr → List Ptr
  | 0, _ => []
  | _ + 1, none => []
  | rounds + 1, some p =>
    p :: match heap p with
      | none => []
      | some n => walk heap rounds n.next

end LearnGit.Uart.Link
