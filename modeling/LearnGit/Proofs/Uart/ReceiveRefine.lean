import LearnGit.Proofs.Uart.Codec
import LearnGit.Proofs.Uart.ReceiveList

/-!
# `LearnGit.Proofs.Uart.ReceiveRefine`: the receiver without pointers

`RxView` is what the receiver of `link_proto.c` is for, without heap, locks and pointers: the
queue of finished items, and per device the item under assembly and the packet number that is
expected next, with the counters and marks that announce the queue. `RxView.rx` takes one packet and
`RxView.recv` takes one item out of the queue.

`RxOk w ps` is the invariant of the pointer-level state: no mutex is held, `list_rx` is a
well-formed list through `ps`, and every item under assembly is a node of its own.
`rxDataInfo_refines` shows that `rx_data_info` keeps it and does what `RxView.rx` does, and
that it answers with the acknowledgement of the packet's own number in every case.
`linkRecv_refines` is the same for `link_recv`, for a call that keeps the list well formed.
-/

set_option autoImplicit false

namespace LearnGit.Proofs.Uart

open LearnGit.Lib
open LearnGit.Uart.Link

/-- The receiver without pointers. `slot` and `expect` are indexed as `DataItemList`, by
`dev_id - 1`. -/
structure RxView where
  items : List Item
  slot : Nat → Option (List Byte)
  expect : Nat → Nat
  cnt : Nat → UInt8
  mark : UInt16

namespace RxView

/-- The item under assembly becomes `d`, and `n` is expected next. -/
def store (v : RxView) (idx : Nat) (d : List Byte) (n : Nat) : RxView :=
  { v with slot := Function.update v.slot idx (some d), expect := Function.update v.expect idx n }

/-- The item under assembly is finished. -/
def finish (v : RxView) (devId : Nat) (d : List Byte) : RxView :=
  { v with
    items := v.items ++ [⟨devId, d⟩]
    slot := Function.update v.slot (devId - 1) none
    cnt := Function.update v.cnt devId (v.cnt devId + 1)
    mark := v.mark ||| ((1 : UInt16) <<< UInt16.ofNat devId) }

/-- One packet. -/
def rx (v : RxView) (p : ProPacketInfo) : RxView :=
  let idx := p.devId.val - 1
  match p.cmd with
  | .sof => if p.num.val = 1 then v.store idx p.data 2 else v.store idx [] 1
  | .tx =>
    match v.slot idx with
    | none => { v with expect := Function.update v.expect idx 1 }
    | some d =>
      if v.expect idx = p.num.val then v.store idx (d ++ p.data) (nextPktNum p.num.val) else v
  | .eof =>
    match v.slot idx with
    | none => { v with expect := Function.update v.expect idx 1 }
    | some d => v.finish p.devId.val d
  | _ => v

/-- The oldest item of a device leaves the queue. -/
def recv (v : RxView) (devId : Nat) : RxView :=
  { v with
    items := v.items.eraseP fun i => i.devId = devId
    cnt := Function.update v.cnt devId (v.cnt devId - 1)
    mark := if v.cnt devId - 1 = 0 then v.mark &&& ~~~((1 : UInt16) <<< UInt16.ofNat devId)
      else v.mark }

end RxView

/-- The number after a packet's number is another one. -/
theorem nextPktNum_ne (n : Nat) : nextPktNum n ≠ n := by
  unfold nextPktNum MAX_PACKET_NUM MIN_PACKET_NUM
  split <;> omega

/-- The items of `list_rx` that its header leads to, oldest first. -/
def rxItems (w : World) : List Item :=
  (walk w.heap w.brk w.listRx.header).filterMap (itemAt w.heap)

/-- The content of `DataItemList[idx]`. -/
def rxSlot (w : World) (idx : Nat) : Option (List Byte) :=
  (w.dataItemList idx).bind fun p => (w.heap p).map (·.data)

/-- A state of the receiver without its pointers. -/
def view (w : World) : RxView where
  items := rxItems w
  slot := rxSlot w
  expect := w.pktNum
  cnt := w.devCntR
  mark := w.markR

/-- The invariant of the receiver's pointer-level state; `ps` are the nodes of `list_rx`. -/
structure RxOk (w : World) (ps : List Ptr) : Prop where
  unlocked : ∀ m, w.held m = false
  fresh : ∀ p, w.brk ≤ p → w.heap p = none
  list : DList (nextOf w.heap) (preOf w.heap) w.listRx.header w.listRx.tail ps
  slot : ∀ idx p, w.dataItemList idx = some p →
    p ∉ ps ∧ ∃ n, w.heap p = some n ∧ n.devId = idx + 1
  slot_inj : ∀ i j p, w.dataItemList i = some p → w.dataItemList j = some p → i = j

/-- The invariant holds when the program starts. -/
theorem rxOk_init : RxOk World.init [] where
  unlocked _ := rfl
  fresh _ _ := rfl
  list := ⟨rfl, trivial, rfl⟩
  slot _ _ h := by simp [World.init] at h
  slot_inj _ _ _ h := by simp [World.init] at h

/-- The queue in terms of the nodes of the list. -/
theorem RxOk.items_eq {w : World} {ps : List Ptr} (h : RxOk w ps) :
    rxItems w = ps.filterMap (itemAt w.heap) := by
  rw [rxItems, walk_of_seg h.list.chain w.brk (seg_length_le h.list.chain h.fresh)]

/-- Every node of the list carries an item. -/
theorem RxOk.item_isSome {w : World} {ps : List Ptr} (h : RxOk w ps) {p : Ptr} (hp : p ∈ ps) :
    ∃ i, itemAt w.heap p = some i := by
  obtain ⟨n, hn⟩ := seg_node h.list.chain hp
  exact ⟨itemOf n, by rw [itemAt, hn]; rfl⟩

/-! ### Stores that leave the list alone -/

/-- A new packet number keeps the invariant. -/
theorem RxOk.setPktNum {w : World} {ps : List Ptr} (h : RxOk w ps) (idx n : Nat) :
    RxOk (w.setPktNum idx n) ps :=
  ⟨h.unlocked, h.fresh, h.list, h.slot, h.slot_inj⟩

/-- Writing a frame keeps the invariant. -/
theorem RxOk.write {w : World} {ps : List Ptr} (h : RxOk w ps) (frame : List Byte) :
    RxOk (w.write frame) ps :=
  ⟨h.unlocked, h.fresh, h.list, h.slot, h.slot_inj⟩

/-- In the view a new packet number is the one the device expects. -/
@[simp] theorem view_setPktNum (w : World) (idx n : Nat) :
    view (w.setPktNum idx n)
      = { view w with expect := Function.update (view w).expect idx n } := rfl

/-- The packet number that was set is read back. -/
@[simp] theorem setPktNum_pktNum (w : World) (idx n : Nat) :
    (w.setPktNum idx n).pktNum idx = n := by simp [World.setPktNum]

/-- With the buffer's lock free a packet is packed and written. -/
theorem writePacket_eq {w : World} (h : w.held .txBuf = false) (pkt : ProPacketInfo) :
    writePacket w pkt = some (w.write (proPackData pkt)) := by
  simp [writePacket, World.lock, World.unlock, World.write, h, update_lock_unlock h]

/-- With the buffer's lock free an answer is packed and written. -/
theorem sendAnswerPacket_eq {w : World} (h : w.held .txBuf = false) (devId : Fin 8) (num : Fin 4)
    (cmd : ProtocolCmd) :
    sendAnswerPacket w devId num cmd =
      some (w.write (proPackData (answerPacket devId num cmd))) :=
  writePacket_eq h _

/-! ### The item under assembly -/

/-- A store into the item under assembly keeps the invariant. -/
theorem RxOk.setSlot {w : World} {ps : List Ptr} (h : RxOk w ps) {idx : Nat} {p : Ptr}
    (hp : w.dataItemList idx = some p) (n : ProDataInfo) (hn : n.devId = idx + 1) :
    RxOk (w.setNode p n) ps := by
  obtain ⟨hps, m, hm, _⟩ := h.slot idx p hp
  refine ⟨h.unlocked, fun q hq => ?_, ⟨?_, ?_, h.list.last⟩, fun i q hq => ?_, h.slot_inj⟩
  · have hne : q ≠ p := by
      rintro rfl
      simp [h.fresh q hq] at hm
    simp [hne, h.fresh q hq]
  · exact h.list.chain.congr fun q hq => nextOf_update_of_ne fun he => hps (he ▸ hq)
  · exact h.list.back.congr fun q hq => preOf_update_of_ne fun he => hps (he ▸ hq)
  · obtain ⟨hqs, k, hk, hkd⟩ := h.slot i q hq
    refine ⟨hqs, ?_⟩
    by_cases hqp : q = p
    · subst hqp
      exact ⟨n, by simp, by rw [hn, h.slot_inj i idx q hq hp]⟩
    · exact ⟨k, by simp [hqp, hk], hkd⟩

/-- What a store into the item under assembly changes in the view. -/
theorem RxOk.view_setSlot {w : World} {ps : List Ptr} (h : RxOk w ps) {idx : Nat} {p : Ptr}
    (hp : w.dataItemList idx = some p) (n : ProDataInfo) (hn : n.devId = idx + 1) :
    view (w.setNode p n)
      = { view w with slot := Function.update (view w).slot idx (some n.data) } := by
  have hitems : rxItems (w.setNode p n) = rxItems w := by
    rw [(h.setSlot hp n hn).items_eq, h.items_eq]
    refine List.filterMap_congr fun q hq => ?_
    have hne : q ≠ p := fun he => (h.slot idx p hp).1 (he ▸ hq)
    simp [itemAt, hne]
  have hslot : rxSlot (w.setNode p n) = Function.update (rxSlot w) idx (some n.data) := by
    funext i
    by_cases hi : i = idx
    · subst hi
      simp [rxSlot, World.setNode, hp]
    · rw [Function.update_of_ne hi]
      unfold rxSlot
      cases hq : w.dataItemList i with
      | none => simp [World.setNode, hq]
      | some q =>
        have hne : q ≠ p := fun he => hi (h.slot_inj i idx p (he ▸ hq) hp)
        simp [World.setNode, hq, hne]
  unfold view
  rw [hitems, hslot]
  rfl

/-- A new item under assembly keeps the invariant. -/
theorem RxOk.newSlot {w : World} {ps : List Ptr} (h : RxOk w ps) (idx : Nat)
    (n : ProDataInfo) (hn : n.devId = idx + 1) :
    RxOk ((w.malloc n).setItem idx (some w.brk)) ps := by
  have hbrk : w.heap w.brk = none := h.fresh w.brk (Nat.le_refl _)
  -- `brk` has no node yet, so it is neither on the list nor in a slot.
  have hnew : ∀ q, q ∈ ps → q ≠ w.brk := by
    rintro q hq rfl
    obtain ⟨m, hm⟩ := seg_node h.list.chain hq
    simp [hbrk] at hm
  have hslot : ∀ i q, w.dataItemList i = some q → q ≠ w.brk := by
    rintro i q hq rfl
    obtain ⟨_, m, hm, _⟩ := h.slot i _ hq
    simp [hbrk] at hm
  refine ⟨h.unlocked, fun q hq => ?_, ⟨?_, ?_, h.list.last⟩, fun i q hq => ?_, fun i j q hi hj => ?_⟩
  · have hlt : w.brk < q := hq
    have hne : q ≠ w.brk := Nat.ne_of_gt hlt
    simp [World.setItem, World.malloc, hne, h.fresh q (Nat.le_of_lt hlt)]
  · exact h.list.chain.congr fun q hq => nextOf_update_of_ne (hnew q hq)
  · exact h.list.back.congr fun q hq => preOf_update_of_ne (hnew q hq)
  · by_cases hi : i = idx
    · subst hi
      obtain rfl : w.brk = q := by simpa [World.setItem] using hq
      exact ⟨fun hm => hnew _ hm rfl, n, by simp [World.setItem, World.malloc], hn⟩
    · have hq' : w.dataItemList i = some q := by simpa [World.setItem, World.malloc, hi] using hq
      obtain ⟨hqs, m, hm, hmd⟩ := h.slot i q hq'
      exact ⟨hqs, m, by simp [World.setItem, World.malloc, hslot i q hq', hm], hmd⟩
  · by_cases hi' : i = idx <;> by_cases hj' : j = idx
    · rw [hi', hj']
    · subst hi'
      have hb : w.brk = q := by simpa [World.setItem] using hi
      exact absurd hb.symm (hslot j q (by simpa [World.setItem, World.malloc, hj'] using hj))
    · subst hj'
      have hb : w.brk = q := by simpa [World.setItem] using hj
      exact absurd hb.symm (hslot i q (by simpa [World.setItem, World.malloc, hi'] using hi))
    · exact h.slot_inj i j q (by simpa [World.setItem, World.malloc, hi'] using hi)
        (by simpa [World.setItem, World.malloc, hj'] using hj)

/-- What a new item under assembly changes in the view. -/
theorem RxOk.view_newSlot {w : World} {ps : List Ptr} (h : RxOk w ps) (idx : Nat)
    (n : ProDataInfo) (hn : n.devId = idx + 1) :
    view ((w.malloc n).setItem idx (some w.brk))
      = { view w with slot := Function.update (view w).slot idx (some n.data) } := by
  have hbrk : w.heap w.brk = none := h.fresh w.brk (Nat.le_refl _)
  have hitems : rxItems ((w.malloc n).setItem idx (some w.brk)) = rxItems w := by
    rw [(h.newSlot idx n hn).items_eq, h.items_eq]
    refine List.filterMap_congr fun q hq => ?_
    obtain ⟨i, hi⟩ := h.item_isSome hq
    have hne : q ≠ w.brk := by
      rintro rfl
      simp [itemAt, hbrk] at hi
    simp [itemAt, World.setItem, World.malloc, hne]
  have hslot : rxSlot ((w.malloc n).setItem idx (some w.brk))
      = Function.update (rxSlot w) idx (some n.data) := by
    funext i
    by_cases hi : i = idx
    · subst hi
      simp [rxSlot, World.setItem, World.malloc]
    · rw [Function.update_of_ne hi]
      unfold rxSlot
      cases hq : w.dataItemList i with
      | none => simp [World.setItem, World.malloc, hi, hq]
      | some q =>
        obtain ⟨_, m, hm, _⟩ := h.slot i q hq
        have hne : q ≠ w.brk := by
          rintro rfl
          simp [hbrk] at hm
        simp [World.setItem, World.malloc, hi, hq, hne]
  unfold view
  rw [hitems, hslot]
  rfl

/-! ### The packet handlers -/

/-- The outcome of a handler: it returns, keeps the invariant, does what the view says and
writes `out`. -/
def Does (r : Option (World × Int)) (w : World) (v : RxView) (out : List (List Byte)) : Prop :=
  ∃ w' ret ps, r = some (w', ret) ∧ RxOk w' ps ∧ view w' = v ∧ w'.ttyOut = w.ttyOut ++ out

/-- The frame that acknowledges a packet. -/
def ackFrame (ppkt : ProPacketInfo) : List Byte :=
  proPackData (answerPacket ppkt.devId ppkt.num .ack)

/-- A handler that only steps the expected number, or not even that, and answers. -/
theorem answer_does {w : World} {ps : List Ptr} (h : RxOk w ps) (ppkt : ProPacketInfo) (ret : Int) :
    Does (do let w ← sendAnswerPacket w ppkt.devId ppkt.num .ack; return (w, ret)) w (view w)
      [ackFrame ppkt] := by
  rw [sendAnswerPacket_eq (h.unlocked .txBuf)]
  exact ⟨_, ret, ps, rfl, h.write _, rfl, rfl⟩

/-- Taking the payload of a packet whose number is the expected one. -/
theorem takePayload_does {w : World} {ps : List Ptr} (h : RxOk w ps) {idx : Nat} {p : Ptr}
    {d : List Byte} (hp : w.dataItemList idx = some p) (hd : (view w).slot idx = some d)
    (ppkt : ProPacketInfo) (hnum : w.pktNum idx = ppkt.num.val) :
    Does (takePayload w Alloc.ok idx p ppkt) w
      ((view w).store idx (d ++ ppkt.data) (nextPktNum ppkt.num.val)) [ackFrame ppkt] := by
  obtain ⟨_, n, hn, hdev⟩ := h.slot idx p hp
  obtain rfl : n.data = d := by simpa [view, rxSlot, hp, hn] using hd
  have hok := h.setSlot hp { n with data := n.data ++ ppkt.data } hdev
  have hview := h.view_setSlot hp { n with data := n.data ++ ppkt.data } hdev
  unfold takePayload
  simp only [Alloc.ok, if_true, modifyNode_eq hn, Option.bind_eq_bind, Option.bind_some]
  obtain ⟨w', ret, qs, heq, hok', hview', hout⟩ :=
    answer_does (hok.setPktNum idx (nextPktNum (w.pktNum idx))) ppkt 0
  refine ⟨w', ret, qs, heq, hok', ?_, hout⟩
  rw [hview', view_setPktNum, hview, hnum]
  rfl

/-- The part of the `sof` handler after the item is empty. -/
theorem sofStart_does {w : World} {ps : List Ptr} (h : RxOk w ps) (idx : Nat) {p : Ptr}
    (hp : w.dataItemList idx = some p) (hd : (view w).slot idx = some [])
    (ppkt : ProPacketInfo) :
    Does (sofStart w Alloc.ok idx p ppkt) w
      (if ppkt.num.val = 1 then (view w).store idx ppkt.data 2 else (view w).store idx [] 1)
      [ackFrame ppkt] := by
  have hok := h.setPktNum idx MIN_PACKET_NUM
  unfold sofStart
  simp only [setPktNum_pktNum]
  by_cases hnum : ppkt.num.val = 1
  · obtain ⟨w', ret, qs, heq, hok', hview', hout⟩ :=
      takePayload_does hok (d := []) hp hd ppkt (by rw [setPktNum_pktNum, hnum]; rfl)
    rw [if_neg (by simp [MIN_PACKET_NUM, hnum]), if_pos hnum]
    refine ⟨w', ret, qs, heq, hok', ?_, hout⟩
    rw [hview', hnum]
    simp [RxView.store, nextPktNum, MAX_PACKET_NUM]
  · obtain ⟨w', ret, qs, heq, hok', hview', hout⟩ := answer_does hok ppkt 0
    rw [if_pos (by simpa [MIN_PACKET_NUM, eq_comm] using hnum), if_neg hnum]
    refine ⟨w', ret, qs, heq, hok', ?_, hout⟩
    have hsame : Function.update (view w).slot idx (some []) = (view w).slot := by
      rw [← hd, Function.update_eq_self]
    rw [hview', view_setPktNum]
    simp only [RxView.store, hsame]
    rfl

/-- The handler of a start does what the view says and acknowledges it. -/
theorem dealWithSofPacket_does {w : World} {ps : List Ptr} (h : RxOk w ps)
    (ppkt : ProPacketInfo) (hdev : ppkt.devId.val ≠ 0) (hcmd : ppkt.cmd = .sof) :
    Does (dealWithSofPacket w Alloc.ok ppkt) w ((view w).rx ppkt) [ackFrame ppkt] := by
  obtain ⟨idx, hidx⟩ : ∃ idx, ppkt.devId.val = idx + 1 := ⟨ppkt.devId.val - 1, by omega⟩
  have hv : (view w).rx ppkt = if ppkt.num.val = 1 then (view w).store idx ppkt.data 2
      else (view w).store idx [] 1 := by
    simp [RxView.rx, hcmd, hidx]
  -- Emptying the slot first makes no difference to a view that stores into it.
  have hstore : ∀ d n, ({ view w with slot := Function.update (view w).slot idx (some []) }
      : RxView).store idx d n = (view w).store idx d n := by
    intro d n
    simp [RxView.store, Function.update_idem]
  rw [hv]
  unfold dealWithSofPacket
  simp only [hidx]
  cases hitem : w.dataItemList idx with
  | none =>
    have hok := h.newSlot idx { devId := idx + 1, data := [] } rfl
    have hview := h.view_newSlot idx { devId := idx + 1, data := [] } rfl
    obtain ⟨w', ret, qs, heq, hok', hview', hout⟩ := sofStart_does hok idx (p := w.brk)
      (by simp [World.setItem]) (by rw [hview]; simp) ppkt
    refine ⟨w', ret, qs, heq, hok', ?_, hout⟩
    rw [hview', hview]
    split <;> exact hstore _ _
  | some p =>
    obtain ⟨_, n, hn, _⟩ := h.slot idx p hitem
    have hok := h.setSlot hitem { devId := idx + 1, data := [] } rfl
    have hview := h.view_setSlot hitem { devId := idx + 1, data := [] } rfl
    obtain ⟨w', ret, qs, heq, hok', hview', hout⟩ := sofStart_does hok idx (p := p)
      hitem (by rw [hview]; simp) ppkt
    simp only [modifyNode_eq hn, Option.bind_eq_bind, Option.bind_some]
    refine ⟨w', ret, qs, heq, hok', ?_, hout⟩
    rw [hview', hview]
    split <;> exact hstore _ _

/-- The handler of a middle does what the view says and acknowledges it. -/
theorem dealWithTxPacket_does {w : World} {ps : List Ptr} (h : RxOk w ps)
    (ppkt : ProPacketInfo) (hdev : ppkt.devId.val ≠ 0) (hcmd : ppkt.cmd = .tx) :
    Does (dealWithTxPacket w Alloc.ok ppkt) w ((view w).rx ppkt) [ackFrame ppkt] := by
  obtain ⟨idx, hidx⟩ : ∃ idx, ppkt.devId.val = idx + 1 := ⟨ppkt.devId.val - 1, by omega⟩
  unfold dealWithTxPacket
  simp only [hidx]
  cases hitem : w.dataItemList idx with
  | none =>
    have hslot : (view w).slot idx = none := by simp [view, rxSlot, hitem]
    simp only [RxView.rx, hcmd, hidx, Nat.add_sub_cancel, hslot]
    exact answer_does (h.setPktNum idx MIN_PACKET_NUM) ppkt (-1)
  | some p =>
    obtain ⟨_, n, hn, _⟩ := h.slot idx p hitem
    have hslot : (view w).slot idx = some n.data := by simp [view, rxSlot, hitem, hn]
    have hexp : (view w).expect idx = w.pktNum idx := rfl
    simp only [RxView.rx, hcmd, hidx, Nat.add_sub_cancel, hslot, hexp]
    -- A packet out of turn is acknowledged all the same.
    by_cases hnum : w.pktNum idx = ppkt.num.val
    · rw [if_neg (not_not.mpr hnum), if_pos hnum]
      exact takePayload_does h hitem hslot ppkt hnum
    · rw [if_pos hnum, if_neg hnum]
      exact answer_does h ppkt 0

/-- Counting an item keeps the invariant. -/
theorem RxOk.eofCount {w : World} {ps : List Ptr} (h : RxOk w ps) (devId : Nat) :
    RxOk (eofCount w devId) ps :=
  ⟨h.unlocked, h.fresh, h.list, h.slot, h.slot_inj⟩

/-- In the view the device's count goes up by one. -/
@[simp] theorem view_eofCount (w : World) (devId : Nat) :
    view (eofCount w devId) = { view w with
      cnt := Function.update (view w).cnt devId ((view w).cnt devId + 1)
      mark := (view w).mark ||| ((1 : UInt16) <<< UInt16.ofNat devId) } := rfl

/-- The item under assembly is appended to `list_rx` and its slot is cleared. The mutexes, the
counters and the marks are set aside. -/
def queueItem (w : World) (idx : Nat) (p : Ptr) : World :=
  ({ w with heap := appendHeap w.heap w.listRx.tail p }.setList .rx
    ⟨w.listRx.header.or (some p), some p⟩).setItem idx none

/-- Moving the item of a slot behind the queue keeps the invariant. -/
theorem RxOk.appendSlot {w : World} {ps : List Ptr} (h : RxOk w ps) {idx : Nat} {p : Ptr}
    (hp : w.dataItemList idx = some p) :
    RxOk (queueItem w idx p) (ps ++ [p]) := by
  obtain ⟨hps, n, hn, hdev⟩ := h.slot idx p hp
  have hsome : (w.heap p).isSome := by simp [hn]
  refine ⟨h.unlocked, fun q hq => ?_, appendHeap_dlist h.list hsome hps, fun i q hq => ?_,
    fun i j q hi hj => ?_⟩
  · have hq' : w.heap q = none := h.fresh q hq
    have hne : q ≠ p := by
      rintro rfl
      simp [hn] at hq'
    simp [queueItem, World.setItem, appendHeap, hne, hq']
  · have hi : i ≠ idx := by
      rintro rfl
      simp [queueItem, World.setItem] at hq
    have hq' : w.dataItemList i = some q := by
      simpa [queueItem, World.setItem, World.setList, hi] using hq
    have hne : q ≠ p := fun he => hi (h.slot_inj i idx p (he ▸ hq') hp)
    obtain ⟨hqs, m, hm, hmd⟩ := h.slot i q hq'
    refine ⟨by simp [hqs, hne], ?_⟩
    by_cases ht : w.listRx.tail = some q
    · exact ⟨{ m with next := some p },
        by simp [queueItem, World.setItem, appendHeap, hne, ht, hm], hmd⟩
    · exact ⟨m, by simp [queueItem, World.setItem, appendHeap, hne, ht, hm], hmd⟩
  · have hi' : i ≠ idx := by
      rintro rfl
      simp [queueItem, World.setItem] at hi
    have hj' : j ≠ idx := by
      rintro rfl
      simp [queueItem, World.setItem] at hj
    exact h.slot_inj i j q (by simpa [queueItem, World.setItem, World.setList, hi'] using hi)
      (by simpa [queueItem, World.setItem, World.setList, hj'] using hj)

/-- What appending the item under assembly changes in the view. -/
theorem RxOk.view_appendSlot {w : World} {ps : List Ptr} (h : RxOk w ps) {idx : Nat} {p : Ptr}
    {d : List Byte} (hp : w.dataItemList idx = some p) (hd : (view w).slot idx = some d) :
    view (queueItem w idx p)
      = { view w with
          items := (view w).items ++ [⟨idx + 1, d⟩]
          slot := Function.update (view w).slot idx none } := by
  obtain ⟨hps, n, hn, hdev⟩ := h.slot idx p hp
  obtain rfl : n.data = d := by simpa [view, rxSlot, hp, hn] using hd
  have hitems : rxItems (queueItem w idx p)
      = rxItems w ++ [⟨idx + 1, n.data⟩] := by
    rw [(h.appendSlot hp).items_eq, h.items_eq]
    have hsame : itemAt (queueItem w idx p).heap = itemAt w.heap := by
      funext q
      exact itemAt_appendHeap w.heap w.listRx.tail p q
    rw [hsame, List.filterMap_append]
    simp [itemAt, hn, itemOf, hdev]
  have hslot : rxSlot (queueItem w idx p)
      = Function.update (rxSlot w) idx none := by
    funext i
    by_cases hi : i = idx
    · subst hi
      simp [rxSlot, queueItem, World.setItem]
    · rw [Function.update_of_ne hi]
      have hdata : ∀ q, ((appendHeap w.heap w.listRx.tail p) q).map (·.data)
          = (w.heap q).map (·.data) := by
        intro q
        have := itemAt_appendHeap w.heap w.listRx.tail p q
        have := congrArg (Option.map Item.data) this
        simpa [itemAt, itemOf, Option.map_map, Function.comp_def] using this
      simp [rxSlot, queueItem, World.setItem, World.setList, hi, hdata]
  unfold view
  rw [hitems, hslot]
  rfl

/-- The handler of an end does what the view says and acknowledges it. -/
theorem dealWithEofPacket_does {w : World} {ps : List Ptr} (h : RxOk w ps)
    (ppkt : ProPacketInfo) (hdev : ppkt.devId.val ≠ 0) (hcmd : ppkt.cmd = .eof) :
    Does (dealWithEofPacket w ppkt) w ((view w).rx ppkt) [ackFrame ppkt] := by
  obtain ⟨idx, hidx⟩ : ∃ idx, ppkt.devId.val = idx + 1 := ⟨ppkt.devId.val - 1, by omega⟩
  unfold dealWithEofPacket
  simp only [hidx]
  cases hitem : w.dataItemList idx with
  | none =>
    have hslot : (view w).slot idx = none := by simp [view, rxSlot, hitem]
    simp only [RxView.rx, hcmd, hidx, Nat.add_sub_cancel, hslot]
    exact answer_does (h.setPktNum idx MIN_PACKET_NUM) ppkt (-1)
  | some p =>
    obtain ⟨hps, n, hn, hnd⟩ := h.slot idx p hitem
    have hslot : (view w).slot idx = some n.data := by simp [view, rxSlot, hitem, hn]
    simp only [RxView.rx, hcmd, hidx, Nat.add_sub_cancel, hslot]
    have hok := h.appendSlot hitem
    have hview := h.view_appendSlot hitem hslot
    -- The list sees neither the mutexes nor the counters.
    have happ : appendToListTail { w with held := Function.update w.held .rxList true } .rx p
        = some ({ w with
            held := Function.update w.held .rxList true
            heap := appendHeap w.heap w.listRx.tail p }.setList .rx
            ⟨w.listRx.header.or (some p), some p⟩) :=
      appendToListTail_eq (w := { w with held := Function.update w.held .rxList true }) .rx
        h.list.chain h.list.last (by simp [hn]) hps
    have hrest : (Function.update (Function.update (Function.update (Function.update w.held
        .rxList true) .listen true) .listen false) .rxList false) = w.held := by
      rw [update_lock_unlock (by simp [h.unlocked]), update_lock_unlock (h.unlocked _)]
    simp only [World.lock, h.unlocked, Bool.false_eq_true, if_false, Option.bind_eq_bind,
      Option.bind_some, happ]
    simp only [World.setList, World.unlock, eofCount, World.setItem, Function.update_of_ne
      (show Mutex.listen ≠ Mutex.rxList by decide), h.unlocked, Bool.false_eq_true, if_false,
      Option.bind_some, hrest]
    obtain ⟨w', ret, qs, heq, hok', hview', hout⟩ := answer_does (hok.eofCount (idx + 1)) ppkt 0
    refine ⟨w', ret, qs, heq, hok', ?_, hout⟩
    rw [hview', view_eofCount, hview]
    rfl

/-- A data packet of device 1. -/
def DataPacket (p : ProPacketInfo) : Prop :=
  p.devId = 1 ∧ (p.cmd = .sof ∨ p.cmd = .tx ∨ p.cmd = .eof)

instance (p : ProPacketInfo) : Decidable (DataPacket p) :=
  inferInstanceAs (Decidable (_ ∧ _))

/-- `rx_data_info` on a data packet does what the view says, and it acknowledges the packet by
its own number whether it took the packet or not. -/
theorem rxDataInfo_refines {w : World} {ps : List Ptr} (h : RxOk w ps) {ppkt : ProPacketInfo}
    (hppkt : DataPacket ppkt) :
    Does (rxDataInfo w Alloc.ok ppkt) w ((view w).rx ppkt) [ackFrame ppkt] := by
  obtain ⟨hone, hcmd⟩ := hppkt
  have hdev : ppkt.devId.val ≠ 0 := by simp [hone]
  unfold rxDataInfo
  rcases hcmd with hc | hc | hc <;> simp only [hc]
  · exact dealWithSofPacket_does h ppkt hdev hc
  · exact dealWithTxPacket_does h ppkt hdev hc
  · exact dealWithEofPacket_does h ppkt hdev hc

/-- A packet finishes an item, or it leaves the queue and its marks alone. -/
theorem rx_finish_or_keep (v : RxView) {p : ProPacketInfo} (hp : DataPacket p) :
    (p.cmd = .eof ∧ ∃ d, v.slot 0 = some d ∧ v.rx p = v.finish 1 d) ∨
    ((p.cmd = .eof → v.slot 0 = none) ∧ (v.rx p).items = v.items ∧ (v.rx p).cnt = v.cnt ∧
      (v.rx p).mark = v.mark) := by
  obtain ⟨hdev, hcmd⟩ := hp
  rcases hcmd with hc | hc | hc <;> simp only [RxView.rx, hc, hdev, Fin.val_one, Nat.sub_self]
  · right
    refine ⟨fun he => absurd he (by decide), ?_⟩
    split <;> exact ⟨rfl, rfl, rfl⟩
  · right
    refine ⟨fun he => absurd he (by decide), ?_⟩
    cases v.slot 0 with
    | none => exact ⟨rfl, rfl, rfl⟩
    | some d =>
      dsimp only
      split <;> exact ⟨rfl, rfl, rfl⟩
  · cases hs : v.slot 0 with
    | none => exact Or.inr ⟨fun _ => rfl, rfl, rfl, rfl⟩
    | some d => exact Or.inl ⟨trivial, d, rfl, rfl⟩

/-! ### Allocations that fail -/

/-- The outcome of a handler when less is said about what it does: it returns, keeps the
invariant and adds at most one item, of device 1, to the queue `items`. -/
def KeepsOk (r : Option (World × Int)) (items : List Item) : Prop :=
  ∃ w' ret ps, r = some (w', ret) ∧ RxOk w' ps ∧
    (rxItems w' = items ∨ ∃ d, rxItems w' = items ++ [⟨1, d⟩])

/-- An answer keeps the invariant and the queue. -/
theorem answer_keepsOk {w : World} {ps : List Ptr} (h : RxOk w ps) (devId : Fin 8) (num : Fin 4)
    (cmd : ProtocolCmd) (ret : Int) :
    KeepsOk (do let w ← sendAnswerPacket w devId num cmd; return (w, ret)) (rxItems w) := by
  rw [sendAnswerPacket_eq (h.unlocked .txBuf)]
  exact ⟨_, ret, ps, rfl, h.write _, Or.inl rfl⟩

/-- The item under assembly is given up. -/
theorem RxOk.freeSlot {w : World} {ps : List Ptr} (h : RxOk w ps) {idx : Nat} {p : Ptr}
    (hp : w.dataItemList idx = some p) : RxOk ((w.free p).setItem idx none) ps := by
  obtain ⟨hps, m, hm, _⟩ := h.slot idx p hp
  have hslot : ∀ i q, ((w.free p).setItem idx none).dataItemList i = some q →
      w.dataItemList i = some q ∧ i ≠ idx := by
    intro i q hq
    have hi : i ≠ idx := by
      rintro rfl
      simp [World.setItem] at hq
    exact ⟨by simpa [World.setItem, World.free, hi] using hq, hi⟩
  refine ⟨h.unlocked, fun q hq => ?_, ⟨?_, ?_, h.list.last⟩, fun i q hq => ?_, fun i j q hi hj => ?_⟩
  · show Function.update w.heap p none q = none
    by_cases hqp : q = p
    · rw [hqp, Function.update_self]
    · rw [Function.update_of_ne hqp]
      exact h.fresh q hq
  · exact h.list.chain.congr fun q hq => nextOf_update_of_ne fun he => hps (he ▸ hq)
  · exact h.list.back.congr fun q hq => preOf_update_of_ne fun he => hps (he ▸ hq)
  · obtain ⟨hq', hi⟩ := hslot i q hq
    obtain ⟨hqs, n, hn, hnd⟩ := h.slot i q hq'
    have hqp : q ≠ p := fun he => hi (h.slot_inj i idx p (he ▸ hq') hp)
    refine ⟨hqs, n, ?_, hnd⟩
    show Function.update w.heap p none q = some n
    rw [Function.update_of_ne hqp, hn]
  · exact h.slot_inj i j q (hslot i q hi).1 (hslot j q hj).1

/-- Freeing the item of a slot leaves the queue as it is. -/
theorem RxOk.items_freeSlot {w : World} {ps : List Ptr} (h : RxOk w ps) {idx : Nat} {p : Ptr}
    (hp : w.dataItemList idx = some p) : rxItems ((w.free p).setItem idx none) = rxItems w := by
  rw [(h.freeSlot hp).items_eq, h.items_eq]
  refine List.filterMap_congr fun q hq => ?_
  have hne : q ≠ p := fun he => (h.slot idx p hp).1 (he ▸ hq)
  show ((Function.update w.heap p none) q).map itemOf = _
  rw [Function.update_of_ne hne]
  rfl

/-- Taking a payload into a slot leaves the queue as it is, with or without memory. -/
theorem takePayload_keepsOk {w : World} {ps : List Ptr} (h : RxOk w ps) {idx : Nat} {p : Ptr}
    (hp : w.dataItemList idx = some p) (alloc : Alloc) (ppkt : ProPacketInfo)
    (hnum : w.pktNum idx = ppkt.num.val) :
    KeepsOk (takePayload w alloc idx p ppkt) (rxItems w) := by
  by_cases hre : alloc.realloc = true
  · obtain ⟨_, n, hn, _⟩ := h.slot idx p hp
    have heq : takePayload w alloc idx p ppkt = takePayload w Alloc.ok idx p ppkt := by
      unfold takePayload
      rw [if_pos hre, if_pos (by rfl)]
    obtain ⟨w', ret, ps', hret, hok, hview, _⟩ :=
      takePayload_does h hp (d := n.data) (by simp [view, rxSlot, hp, hn]) ppkt hnum
    rw [heq]
    exact ⟨w', ret, ps', hret, hok, Or.inl (congrArg RxView.items hview)⟩
  · unfold takePayload
    rw [if_neg hre, ← h.items_freeSlot hp]
    exact answer_keepsOk (h.freeSlot hp) _ _ _ _

/-- Starting an item in a slot leaves the queue as it is, with or without memory. -/
theorem sofStart_keepsOk {w : World} {ps : List Ptr} (h : RxOk w ps) {idx : Nat} {p : Ptr}
    (hp : w.dataItemList idx = some p) (alloc : Alloc) (ppkt : ProPacketInfo) :
    KeepsOk (sofStart w alloc idx p ppkt) (rxItems w) := by
  unfold sofStart
  dsimp only
  split
  · exact answer_keepsOk (h.setPktNum idx MIN_PACKET_NUM) _ _ _ _
  · rename_i hnum
    exact takePayload_keepsOk (h.setPktNum idx MIN_PACKET_NUM) hp alloc ppkt (not_not.mp hnum)

/-- `rx_data_info` on a data packet returns and keeps the invariant, whatever its allocations
do. -/
theorem rxDataInfo_keepsOk {w : World} {ps : List Ptr} (h : RxOk w ps) (alloc : Alloc)
    {ppkt : ProPacketInfo} (hppkt : DataPacket ppkt) :
    KeepsOk (rxDataInfo w alloc ppkt) (rxItems w) := by
  have hidx : ppkt.devId.val = 0 + 1 := by simp [hppkt.1]
  rcases hppkt.2 with hc | hc | hc
  · unfold rxDataInfo dealWithSofPacket
    simp only [hc, hidx]
    cases hitem : w.dataItemList 0 with
    | none =>
      dsimp only
      split
      · have hsame := congrArg RxView.items (h.view_newSlot 0 { devId := 1, data := [] } rfl)
        rw [← show rxItems ((w.malloc _).setItem 0 (some w.brk)) = rxItems w from hsame]
        exact sofStart_keepsOk (h.newSlot 0 { devId := 1, data := [] } rfl)
          (by simp [World.setItem]) alloc ppkt
      · exact answer_keepsOk h _ _ _ _
    | some p =>
      obtain ⟨_, n, hn, _⟩ := h.slot 0 p hitem
      have hsame := congrArg RxView.items (h.view_setSlot hitem { devId := 1, data := [] } rfl)
      simp only [modifyNode_eq hn, Option.bind_eq_bind, Option.bind_some]
      rw [← show rxItems (w.setNode p _) = rxItems w from hsame]
      exact sofStart_keepsOk (h.setSlot hitem { devId := 1, data := [] } rfl) hitem alloc ppkt
  · unfold rxDataInfo dealWithTxPacket
    simp only [hc, hidx]
    cases hitem : w.dataItemList 0 with
    | none => exact answer_keepsOk (h.setPktNum 0 MIN_PACKET_NUM) _ _ _ _
    | some p =>
      dsimp only
      split
      · exact answer_keepsOk h _ _ _ _
      · rename_i hnum
        exact takePayload_keepsOk h hitem alloc ppkt (not_not.mp hnum)
  · -- The `eof` handler allocates nothing.
    have heq : rxDataInfo w alloc ppkt = rxDataInfo w Alloc.ok ppkt := by
      simp only [rxDataInfo, hc]
    obtain ⟨w', ret, ps', hret, hok, hview, _⟩ := rxDataInfo_refines h hppkt
    rw [heq]
    refine ⟨w', ret, ps', hret, hok, ?_⟩
    rcases rx_finish_or_keep (view w) hppkt with ⟨_, d, _, hfin⟩ | ⟨_, hitems, _⟩
    · exact Or.inr ⟨d, congrArg RxView.items (hview.trans hfin)⟩
    · exact Or.inl ((congrArg RxView.items hview).trans hitems)

/-! ### `link_recv` -/

/-- `link_recv` that finds an item at a place from which it can be taken out. -/
theorem linkRecv_refines {w : World} {as bs : List Ptr} {p : Ptr} (h : RxOk w (as ++ p :: bs))
    {devId : Nat} (hdev : devId < MAX_EXTBOARD) (hp : ofDev w.heap devId p = true)
    (has : ∀ q ∈ as, ofDev w.heap devId q = false) (hplace : as = [] ∨ bs ≠ []) :
    ∃ w', linkRecv w devId = some (w', some p) ∧ RxOk w' (as ++ bs) ∧
      view w' = (view w).recv devId := by
  obtain ⟨w', hrecv, hw', hitems, htail, hlist⟩ := linkRecv_found h.fresh h.list
    (h.unlocked .rxList) (h.unlocked .listen) hdev hp has
  have htail' : w'.listRx.tail = (as ++ bs).getLast? := by
    rw [htail, h.list.last]
    cases bs using List.reverseRecOn with
    | nil =>
      have hnil : as = [] := by simpa using hplace
      simp [hnil]
    | append_singleton bs b =>
      rw [if_neg (by simp)]
      simp [List.getLast?_cons]
  have hslots : w'.dataItemList = w.dataItemList := by rw [hw']; rfl
  have hok : RxOk w' (as ++ bs) := by
    refine ⟨fun m => ?_, fun q hq => ?_, ⟨hlist.chain, hlist.back, htail'⟩, fun i q hq => ?_, ?_⟩
    · rw [hw']
      exact h.unlocked m
    · have hbrk : w'.brk = w.brk := by rw [hw']; rfl
      have hnone : itemAt w'.heap q = none := by
        rw [hitems, itemAt, h.fresh q (hbrk ▸ hq)]
        rfl
      simpa [itemAt] using hnone
    · rw [hslots] at hq
      obtain ⟨hqs, n, hn, hnd⟩ := h.slot i q hq
      have hitem : itemAt w'.heap q = some (itemOf n) := by
        rw [hitems, itemAt, hn]
        rfl
      obtain ⟨n', hn', heq⟩ := Option.map_eq_some_iff.mp hitem
      refine ⟨fun hm => hqs ?_, n', hn', ?_⟩
      · simp only [List.mem_append, List.mem_cons] at hm ⊢
        tauto
      · rw [← hnd]
        exact congrArg Item.devId heq
    · rw [hslots]
      exact h.slot_inj
  refine ⟨w', hrecv, hok, ?_⟩
  have hsame : itemAt w'.heap = itemAt w.heap := funext hitems
  have hqueue : rxItems w' = (rxItems w).eraseP fun i => i.devId = devId := by
    rw [hok.items_eq, h.items_eq, hsame]
    have hall : ∀ q ∈ as ++ p :: bs, ∃ i, itemAt w.heap q = some i := fun q hq => h.item_isSome hq
    obtain ⟨i, hi⟩ := hall p (by simp)
    have hid : i.devId = devId := by
      rw [ofDev_of_itemAt hi] at hp
      simpa using hp
    -- The nodes before `p` are of other devices, so `p` carries the first item to erase.
    rw [List.filterMap_append, List.filterMap_append, List.filterMap_cons, hi,
      List.eraseP_append_right, List.eraseP_cons_of_pos (by simpa using hid)]
    intro j hj
    obtain ⟨q, hq, hqj⟩ := List.mem_filterMap.mp hj
    have := has q hq
    rw [ofDev_of_itemAt hqj] at this
    simpa using this
  have hslot : rxSlot w' = rxSlot w := by
    funext i
    have hdata : ∀ q, (w'.heap q).map (·.data) = (w.heap q).map (·.data) := by
      intro q
      have := congrArg (Option.map Item.data) (hitems q)
      simpa [itemAt, itemOf, Option.map_map, Function.comp_def] using this
    simp only [rxSlot, hslots, hdata]
  unfold view
  rw [hqueue, hslot, hw']
  rfl

/-- `link_recv(1)` while only device 1 is queued: it takes out the first node, if there is one. -/
theorem linkRecv_one {w : World} {ps : List Ptr} (h : RxOk w ps)
    (hone : ∀ i ∈ rxItems w, i.devId = 1) :
    linkRecv w 1 = some (w, none) ∨
    ∃ w' p ps', rxItems w ≠ [] ∧ linkRecv w 1 = some (w', some p) ∧ RxOk w' ps' ∧
      view w' = (view w).recv 1 := by
  cases ps with
  | nil => exact Or.inl (linkRecv_none h.list.head_eq 1)
  | cons p ps =>
    right
    obtain ⟨i, hi⟩ := h.item_isSome (p := p) (by simp)
    have hmem : i ∈ rxItems w := by
      rw [h.items_eq, List.filterMap_cons, hi]
      exact List.mem_cons_self
    have hp : ofDev w.heap 1 p = true := by
      rw [ofDev_of_itemAt hi, hone i hmem]
      rfl
    -- The search stops at the header, so `tail` is not left behind.
    have hfirst : RxOk w ([] ++ p :: ps) := h
    obtain ⟨w', hrecv, hok, hview⟩ := linkRecv_refines hfirst (by decide) hp
      (fun _ hx => absurd hx List.not_mem_nil) (Or.inl rfl)
    exact ⟨w', p, ps, List.ne_nil_of_mem hmem, hrecv, hok, hview⟩

end LearnGit.Proofs.Uart
