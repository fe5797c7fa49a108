import LearnGit.Uart.App.Messages
import LearnGit.Uart.Link.StopAndWait
import LearnGit.Uart.Link.ThreadTx

/-!
# `LearnGit.Uart.System`: two boards that talk

One direction of the protocol from the call of a function of `app_proto.c` on one board to the call
of a handler on the other board, with everything between them. On the sending board a message is
given to `link_send`, and `thread_tx` takes the items off `list_tx` and calls `tx_data_info` for each.
The link is that of `Link/StopAndWait.lean`, with frames and answers that may be lost. On the
receiving board `deal_with_indata` builds the items in `list_rx`, while `wait_and_handle_events`
waits in `link_listen`, takes the items out with `link_recv` and gives them to `app_proto_process`.

All steps come in any order. A step of `thread_tx` that takes an item also begins the call of
`tx_data_info`, since nothing lies between, and the call ends for `thread_tx` when the link has
returned from it. `app_proto_process` works on an item that is no longer in a list, so the call and
the `free` at its end are one step with `link_recv`.

`said`, `handled` and `failed` are a record that no step looks at.
-/

set_option autoImplicit false

namespace LearnGit.Uart

open LearnGit.Lib
open LearnGit.Uart.Link
open LearnGit.Uart.App (AppCall dispatch)
open LearnGit.Uart.App.Messages

/-- Where `wait_and_handle_events` stands. -/
inductive EventsPc where
  /-- before the first pass of `link_listen` -/
  | listen
  /-- in the loop of `link_listen` that waits for `in_listen` -/
  | poll
  /-- before `link_recv` -/
  | recv
  deriving DecidableEq, Repr

/-- The state of the two boards. The receiving board is `link.receiver`. -/
structure System where
  tx : TxState
  link : LinkState
  events : EventsPc
  /-- The messages whose item `link_send` has taken. -/
  said : List AppMessage
  /-- The calls that `app_proto_process` has made. -/
  handled : List (Option AppCall)
  /-- A call of `tx_data_info` has returned something else than 0. -/
  failed : Bool

namespace System

def init : System where
  tx := TxState.init
  link := LinkState.init
  events := .listen
  said := []
  handled := []
  failed := false

end System

/-- A step of the two boards. -/
inductive SystemEvent where
  /-- A call of a function of `app_proto.c` that sends, with the outcomes of `malloc`. -/
  | say (m : AppMessage) (mallocOk dataOk : Bool)
  | threadTx
  | link (e : LinkEvent)
  | events

/-- The message is given to `link_send`. -/
def sayStep (s : System) (m : AppMessage) (mallocOk dataOk : Bool) : Option System := do
  match ← m.sending with
  | .returned _ => return s
  | .item dst buf =>
    if h : dst.toNat < MAX_EXTBOARD then
      let tx ← txStep s.tx (.linkSend mallocOk dataOk ⟨dst.toNat, h⟩ (some buf))
      -- `link_send` has taken the item when there is a node more.
      let taken := tx.world.brk ≠ s.tx.world.brk
      return { s with tx := tx, said := if taken then s.said ++ [m] else s.said }
    else none

/-- A step of `thread_tx` outside of `tx_data_info`. The step that takes an item also begins the
call for it. -/
def takeStep (s : System) : Option System := do
  let tx ← threadTxStep s.tx 0 false
  match tx.pc with
  | .transmit _ p =>
    let n ← tx.world.heap p
    let link ← linkStep s.link (.call n.data)
    return { s with tx := tx, link := link }
  | _ => return { s with tx := tx }

/-- The next step of `thread_tx`, with the port open. -/
def threadTxSystem (s : System) : Option System :=
  match s.tx.pc with
  | .transmit _ _ =>
    match s.link.pc with
    | .returned (some ret) => do
      let tx ← threadTxStep s.tx ret false
      return { s with tx := tx, failed := s.failed || ret ≠ 0 }
    | _ => none
  | _ => takeStep s

/-- The sets that `wait_and_handle_events` passes to `link_listen`. -/
def eventSets : DevSets := ⟨none, some 0xFF, none⟩

/-- The next step of `wait_and_handle_events`, with the port open. -/
def eventsStep (s : System) : Option System :=
  let w := s.link.receiver
  match s.events with
  | .listen => do
    let w ← w.lock .listen
    let (_, ret) := listenPass eventSets w
    let w := if ret ≠ 0 then w else { w with inListen := true }
    return { s with
      link := { s.link with receiver := w.unlock .listen }
      events := if ret ≠ 0 then .recv else .poll }
  | .poll => do
    let w ← w.lock .listen
    let (_, ret) := listenPass eventSets w
    return { s with
      link := { s.link with receiver := w.unlock .listen }
      events := if w.inListen then .poll else if ret ≠ 0 then .recv else .listen }
  | .recv => do
    let (w, pdata) ← linkRecv w 1
    match pdata with
    | none => return { s with link := { s.link with receiver := w }, events := .listen }
    | some p =>
      let n ← w.heap p
      return { s with
        link := { s.link with receiver := w.free p }
        handled := s.handled ++ [dispatch n.devId n.data] }

/-- The step function of the two boards. Calls of `tx_data_info` are steps of `thread_tx`. -/
def systemStep (s : System) : SystemEvent → Option System
  | .say m mallocOk dataOk => sayStep s m mallocOk dataOk
  | .threadTx => threadTxSystem s
  | .link (.call _) => none
  | .link e => do return { s with link := ← linkStep s.link e }
  | .events => eventsStep s

/-- The two boards from start-up on, with their steps in any order. -/
def system : Machine System SystemEvent where
  init := System.init
  step := systemStep

end LearnGit.Uart
