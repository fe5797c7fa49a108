import LearnGit.Lib.Machine
import LearnGit.Proofs.Uart.DataList

/-!
# `LearnGit.Proofs.Uart.ReceiveList`: `list_rx` as a queue per device

`list_rx` under any sequence of `append_to_list_tail` and `link_recv`. The machine `recvList`
keeps, next to the memory, the queue that a lossless queue per device would hold and the
answer it would give to each `link_recv`. `FifoOk` says that the memory is one well-formed
doubly linked list through that queue and that every answer so far was the right one.

`recvList_fifo_iff`: `FifoOk` holds in every state of a run exactly when every `link_recv` of
the run meets `RecvOk`. A call does not meet it in two cases. The item it takes out is the last
of several: `list_rx.tail` then keeps pointing to it. Or an earlier call looked for a device
that has no item in a list that is not empty: that call returned with `mutex_rx_list` locked,
and the next one blocks.

`linkRecv_none`, `linkRecv_missing` and `linkRecv_found` say what one call does. They are used
for the ready marks and for the locks, too.
-/

set_option autoImplicit false

namespace LearnGit.Proofs.Uart

open LearnGit.Lib
open LearnGit.Uart.Link

/-! ### One call of `link_recv` -/

/-- The node at `p` belongs to the device. -/
def ofDev (heap : Ptr → Option ProDataInfo) (devId : Nat) (p : Ptr) : Bool :=
  (heap p).any fun n => n.devId == devId

/-- A list that is empty: `link_recv` returns at once. -/
theorem linkRecv_none {w : World} (h : w.listRx.header = none) (devId : Nat) :
    linkRecv w devId = some (w, none) := by
  unfold linkRecv
  rw [if_pos h]

/-- A list that is not empty: `link_recv` waits for `mutex_rx_list`. -/
theorem linkRecv_blocked {w : World} (h : w.listRx.header ≠ none) (hheld : w.held .rxList = true)
    (devId : Nat) : linkRecv w devId = none := by
  unfold linkRecv
  rw [if_neg h, World.lock, if_pos hheld]
  rfl

variable {w : World} {ps : List Ptr}

/-- No item of the device in a list that is not empty: `link_recv` returns -1 and leaves
`mutex_rx_list` locked. -/
theorem linkRecv_missing (hfresh : ∀ p, w.brk ≤ p → w.heap p = none)
    (hs : Seg (nextOf w.heap) w.listRx.header ps none) (hne : ps ≠ [])
    (hheld : w.held .rxList = false) {devId : Nat} (hnone : ∀ p ∈ ps, ofDev w.heap devId p = false) :
    linkRecv w devId
      = some ({ w with held := Function.update w.held .rxList true }, none) := by
  have hhead : w.listRx.header ≠ none := by
    rw [hs.head_eq]
    cases ps with
    | nil => exact absurd rfl hne
    | cons p ps => simp
  have hfind : ps.find? (ofDev w.heap devId) = none := by
    rw [List.find?_eq_none]
    intro p hp
    rw [hnone p hp]
    simp
  unfold linkRecv
  rw [if_neg hhead, lock_eq hheld]
  simp only [Option.bind_eq_bind, Option.bind_some]
  rw [recvFind_of_seg devId hs (w.brk + 1) (Nat.lt_succ_of_le (seg_length_le hs hfresh))]
  rw [show (ps.find? fun p => (w.heap p).any fun n => n.devId == devId) = none from hfind]
  rfl

/-- An item of the device is there: `link_recv` takes out the first one, `p`. The list is well
formed again, but `tail` is its last node only when `p` was the only node or not the last. -/
theorem linkRecv_found {as bs : List Ptr} {p : Ptr}
    (hfresh : ∀ p, w.brk ≤ p → w.heap p = none)
    (h : DList (nextOf w.heap) (preOf w.heap) w.listRx.header w.listRx.tail (as ++ p :: bs))
    (hheld : w.held .rxList = false) (hlisten : w.held .listen = false)
    {devId : Nat} (hdev : devId < MAX_EXTBOARD) (hp : ofDev w.heap devId p = true)
    (has : ∀ q ∈ as, ofDev w.heap devId q = false) :
    ∃ w', linkRecv w devId = some (w', some p) ∧
      w' = { recvCount w devId with heap := w'.heap, listRx := w'.listRx } ∧
      (∀ q, itemAt w'.heap q = itemAt w.heap q) ∧
      w'.listRx.tail = (if as ++ bs = [] then none else w.listRx.tail) ∧
      DList (nextOf w'.heap) (preOf w'.heap) w'.listRx.header (as ++ bs).getLast? (as ++ bs) := by
  have hhead : w.listRx.header ≠ none := by
    rw [h.head_eq]
    cases as <;> simp
  have hfind : (as ++ p :: bs).find? (ofDev w.heap devId) = some p := by
    rw [List.find?_append, List.find?_eq_none.mpr, List.find?_cons_of_pos hp]
    · rfl
    · intro q hq
      rw [has q hq]
      simp
  have hlen := seg_length_le h.chain hfresh
  -- The surgery works on the memory the search walked through.
  obtain ⟨w₁, hunlink, hw₁, hitems, htail, hlist⟩ := recvUnlink_dlist (w :=
    { recvCount w devId with held := Function.update w.held .rxList true }) h
  have hfree : Function.update w.held .rxList true .listen = false := by
    rw [Function.update_of_ne (by decide), hlisten]
  refine ⟨w₁.unlock .rxList, ?_, ?_, hitems, htail, hlist⟩
  · unfold linkRecv
    rw [if_neg hhead, lock_eq hheld]
    simp only [Option.bind_eq_bind, Option.bind_some]
    rw [recvFind_of_seg devId h.chain (w.brk + 1) (Nat.lt_succ_of_le hlen)]
    rw [show ((as ++ p :: bs).find? fun p => (w.heap p).any fun n => n.devId == devId)
      = some p from hfind]
    simp only [Option.bind_some]
    rw [lock_eq (w := { w with held := Function.update w.held .rxList true }) hfree]
    simp only [Option.bind_some, if_pos hdev]
    -- With `mutex_listen` released again, the state is the one the surgery starts from.
    simp only [World.unlock, recvCount, update_lock_unlock hfree] at hunlink ⊢
    rw [hunlink]
    rfl
  · conv_lhs => rw [hw₁]
    simp only [World.unlock, recvCount, update_lock_unlock hheld]

/-! ### The list and the queue -/

/-- An operation on `list_rx`. -/
inductive ListOp where
  | append (item : Item)
  | recv (devId : Nat)
  deriving DecidableEq, Repr

/-- The memory, and next to it what a lossless queue per device holds: the items that were
appended and not yet returned, the answers `link_recv` gave, and the answers it should have
given. -/
structure RecvList where
  w : World
  queue : List (Ptr × Item)
  returned : List (Option Ptr)
  oldest : List (Option Ptr)

/-- The item belongs to the device. -/
def isDev (devId : Nat) (x : Ptr × Item) : Bool := x.2.devId == devId

/-- One operation. It is `none` when the call does not return. -/
def recvListIter (s : RecvList) : ListOp → Option RecvList
  | .append item => do
    let w ← appendToListTail (s.w.malloc { devId := item.devId, data := item.data }) .rx s.w.brk
    return { s with w := w, queue := s.queue ++ [(s.w.brk, item)] }
  | .recv devId => do
    let (w, ret) ← linkRecv s.w devId
    return {
      w := w
      queue := s.queue.eraseP (isDev devId)
      returned := s.returned ++ [ret]
      oldest := s.oldest ++ [(s.queue.find? (isDev devId)).map (·.1)] }

/-- Any sequence of operations from the empty list, with the device ids 1 to 9. The state
`none` is final: a call that does not return. -/
def recvList : Machine (Option RecvList) ListOp where
  init := some ⟨World.init, [], [], []⟩
  step
    | none, _ => none
    | some s, .append item =>
      if 1 ≤ item.devId ∧ item.devId < MAX_EXTBOARD then some (recvListIter s (.append item))
      else none
    | some s, .recv devId => some (recvListIter s (.recv devId))

/-- The memory is one well-formed doubly linked list through the queue, with the items that
were appended, and every `link_recv` returned the oldest item of its device, none of them
twice. -/
structure FifoOk (s : RecvList) : Prop where
  list : DList (nextOf s.w.heap) (preOf s.w.heap) s.w.listRx.header s.w.listRx.tail
    (s.queue.map (·.1))
  items : ∀ x ∈ s.queue, itemAt s.w.heap x.1 = some x.2
  answers : s.returned = s.oldest
  once : (s.returned.filterMap id).Nodup

/-- The oldest item of the device is the last of several. -/
def TakesLast (devId : Nat) (queue : List (Ptr × Item)) : Prop :=
  1 < queue.length ∧ queue.findIdx (isDev devId) + 1 = queue.length

/-- The operations after which the list is still a queue: an append, and a `link_recv` that
finds the list empty, or finds the mutex free and does not take out the last of several items. -/
def RecvOk : Option RecvList → ListOp → Prop
  | none, _ => False
  | some _, .append _ => True
  | some s, .recv devId =>
    s.queue = [] ∨ (s.w.held .rxList = false ∧ ¬ TakesLast devId s.queue)

/-- What else the operations keep. -/
structure RecvListInv (s : RecvList) : Prop where
  fresh : ∀ p, s.w.brk ≤ p → s.w.heap p = none
  listen : s.w.held .listen = false
  devs : ∀ x ∈ s.queue, x.2.devId < MAX_EXTBOARD
  gone : ∀ p ∈ s.returned.filterMap id, p < s.w.brk ∧ p ∉ s.queue.map (·.1)

/-- A node is of the device of its item. -/
theorem ofDev_of_itemAt {heap : Ptr → Option ProDataInfo} {p : Ptr} {i : Item}
    (h : itemAt heap p = some i) (devId : Nat) : ofDev heap devId p = (i.devId == devId) := by
  obtain ⟨n, hn, rfl⟩ := Option.map_eq_some_iff.mp h
  rw [ofDev, hn]
  rfl

/-- The node of a queued item is on the heap. -/
theorem FifoOk.isSome {s : RecvList} (h : FifoOk s) {x : Ptr × Item} (hx : x ∈ s.queue) :
    (s.w.heap x.1).isSome := by
  have := h.items x hx
  rw [itemAt, Option.map_eq_some_iff] at this
  obtain ⟨n, hn, _⟩ := this
  rw [hn]
  rfl

/-- Every node of the queue was allocated. -/
theorem FifoOk.lt_brk {s : RecvList} (h : FifoOk s) (hinv : RecvListInv s) {x : Ptr × Item}
    (hx : x ∈ s.queue) : x.1 < s.w.brk := by
  by_contra hge
  have hsome := h.isSome hx
  rw [hinv.fresh _ (Nat.not_lt.mp hge)] at hsome
  exact nomatch hsome

/-- An append always succeeds and keeps the queue. -/
theorem recvListIter_append {s : RecvList} (h : FifoOk s) (hinv : RecvListInv s) (item : Item)
    (hdev : item.devId < MAX_EXTBOARD) :
    ∃ s', recvListIter s (.append item) = some s' ∧ FifoOk s' ∧ RecvListInv s' := by
  have hnew : ∀ x ∈ s.queue, x.1 ≠ s.w.brk := fun x hx => Nat.ne_of_lt (h.lt_brk hinv hx)
  have hnot : s.w.brk ∉ s.queue.map (·.1) := by
    intro hmem
    obtain ⟨x, hx, heq⟩ := List.mem_map.mp hmem
    exact hnew x hx heq
  -- The new node is not on the list, so allocating it leaves the list as it is.
  generalize hw : s.w.malloc { devId := item.devId, data := item.data } = w
  have hheap : w.heap = Function.update s.w.heap s.w.brk
      (some { devId := item.devId, data := item.data }) := by rw [← hw]; rfl
  have hrx : w.listRx = s.w.listRx := by rw [← hw]; rfl
  have hlist : DList (nextOf w.heap) (preOf w.heap) w.listRx.header w.listRx.tail
      (s.queue.map (·.1)) := by
    rw [hheap, hrx]
    refine ⟨h.list.chain.congr fun q hq => nextOf_update_of_ne ?_,
      h.list.back.congr fun q hq => preOf_update_of_ne ?_, h.list.last⟩ <;>
    · rintro rfl
      exact hnot hq
  have hsome : (w.heap s.w.brk).isSome := by simp [hheap]
  have hlist' := appendHeap_dlist hlist hsome hnot
  obtain ⟨w', happ, rfl⟩ : ∃ w', appendToListTail w .rx s.w.brk = some w' ∧ w' = _ :=
    ⟨_, appendToListTail_eq .rx hlist.chain hlist.last hsome hnot, rfl⟩
  refine ⟨{ s with w := _, queue := s.queue ++ [(s.w.brk, item)] },
    by rw [recvListIter, hw, happ]; rfl, ⟨?_, ?_, h.answers, h.once⟩, ⟨?_, ?_, ?_, ?_⟩⟩
  · show DList _ _ _ _ ((s.queue ++ [(s.w.brk, item)]).map (·.1))
    rw [List.map_append]
    exact hlist'
  · intro x hx
    show itemAt (appendHeap w.heap _ _) x.1 = _
    rw [itemAt_appendHeap, hheap]
    rcases List.mem_append.mp hx with hx | hx
    · rw [itemAt, Function.update_of_ne (hnew x hx)]
      exact h.items x hx
    · rw [List.mem_singleton.mp hx, itemAt, Function.update_self]
      rfl
  · intro p hp
    have hlt : s.w.brk < p := by
      have hle : w.brk ≤ p := hp
      rw [← hw] at hle
      exact Nat.lt_of_succ_le hle
    have hne : p ≠ s.w.brk := Nat.ne_of_gt hlt
    have hnone : w.heap p = none := by
      rw [hheap, Function.update_of_ne hne]
      exact hinv.fresh p (Nat.le_of_lt hlt)
    show appendHeap w.heap _ _ p = none
    simp only [appendHeap, if_neg hne, hnone]
    split <;> rfl
  · show w.held .listen = false
    rw [← hw]
    exact hinv.listen
  · intro x hx
    rcases List.mem_append.mp hx with hx | hx
    · exact hinv.devs x hx
    · rw [List.mem_singleton.mp hx]
      exact hdev
  · intro p hp
    obtain ⟨hlt, hnotq⟩ := hinv.gone p hp
    refine ⟨?_, ?_⟩
    · show p < w.brk
      rw [← hw]
      exact Nat.lt_succ_of_lt hlt
    · show p ∉ (s.queue ++ [(s.w.brk, item)]).map (·.1)
      rw [List.map_append, List.mem_append, not_or]
      refine ⟨hnotq, ?_⟩
      simpa using Nat.ne_of_lt hlt

/-- A `link_recv` that returns without an item, with the memory as it was but for the
mutexes. -/
theorem recvListIter_recv_none {s : RecvList} (h : FifoOk s) (hinv : RecvListInv s)
    {devId : Nat} {held : Mutex → Bool} (hheld : held .listen = s.w.held .listen)
    (hnone : s.queue.find? (isDev devId) = none)
    (hrecv : linkRecv s.w devId = some ({ s.w with held := held }, none)) :
    ∃ s', recvListIter s (.recv devId) = some s' ∧ FifoOk s' ∧ RecvListInv s' := by
  have hqueue : s.queue.eraseP (isDev devId) = s.queue :=
    List.eraseP_of_forall_not fun x hx => by simpa using List.find?_eq_none.mp hnone x hx
  refine ⟨_, by rw [recvListIter, hrecv]; rfl, ?_⟩
  simp only [hqueue, hnone]
  refine ⟨⟨h.list, h.items, ?_, ?_⟩, ⟨hinv.fresh, hheld.trans hinv.listen, hinv.devs, ?_⟩⟩
  · show _ ++ [none] = _ ++ [none]
    rw [h.answers]
  · show ((s.returned ++ [none]).filterMap id).Nodup
    simpa using h.once
  · intro p hp
    have hp' : p ∈ s.returned.filterMap id := by simpa using hp
    exact hinv.gone p hp'

section Found

variable {s : RecvList} {devId : Nat} {as bs : List (Ptr × Item)} {x : Ptr × Item}

/-- Where the oldest item of the device stands in the queue. -/
theorem oldest_of_split (hx : isDev devId x = true) (has : ∀ y ∈ as, isDev devId y = false)
    (bs : List (Ptr × Item)) :
    (as ++ x :: bs).eraseP (isDev devId) = as ++ bs ∧
      (as ++ x :: bs).find? (isDev devId) = some x ∧
      (as ++ x :: bs).findIdx (isDev devId) = as.length := by
  refine ⟨?_, ?_, ?_⟩
  · rw [List.eraseP_append_right _ (fun y hy => by simp [has y hy]), List.eraseP_cons_of_pos hx]
  · rw [List.find?_append, List.find?_eq_none.mpr fun y hy => by simp [has y hy],
      List.find?_cons_of_pos hx]
    rfl
  · rw [List.findIdx_append, List.findIdx_cons, hx,
      List.findIdx_eq_length.mpr (fun y hy => has y hy)]
    simp

/-- What is left of a queue was in it. -/
theorem mem_of_mem_rest {y : Ptr × Item} (hsplit : s.queue = as ++ x :: bs) (hy : y ∈ as ++ bs) :
    y ∈ s.queue := by
  rw [hsplit]
  simp only [List.mem_append, List.mem_cons] at hy ⊢
  tauto

/-- What `link_recv` leaves in `tail` is the last node of the rest, unless it took out the last
of several. -/
theorem tail_iff_not_takesLast (hidx : (as ++ x :: bs).findIdx (isDev devId) = as.length)
    (hxnot : x.1 ∉ (as ++ bs).map (·.1)) {tail : Option Ptr}
    (hlast : tail = ((as ++ x :: bs).map (·.1)).getLast?) :
    (if (as ++ bs).map (·.1) = [] then none else tail) = ((as ++ bs).map (·.1)).getLast?
      ↔ ¬ TakesLast devId (as ++ x :: bs) := by
  unfold TakesLast
  rw [hidx, hlast]
  cases bs using List.reverseRecOn with
  | nil =>
    cases as with
    | nil => simp
    | cons a as =>
      -- The stale case: `tail` is the node that was taken out.
      refine iff_of_false ?_ (by simp)
      rw [if_neg (by simp)]
      simp only [List.append_nil, List.map_append, List.map_cons, List.map_nil,
        List.getLast?_append, List.getLast?_singleton, Option.some_or]
      intro heq
      refine hxnot ?_
      rw [List.append_nil]
      exact List.mem_of_getLast? heq.symm
  | append_singleton bs b =>
    refine iff_of_true ?_ (by simp)
    rw [if_neg (by simp)]
    simp [List.getLast?_cons]

/-- After an item was taken out the rest of the property holds in any case, so it is down to
`tail`. -/
theorem FifoOk.taken_iff (h : FifoOk s) (hinv : RecvListInv s) (hsplit : s.queue = as ++ x :: bs)
    {w' : World} (hitems : ∀ q, itemAt w'.heap q = itemAt s.w.heap q)
    (hlist : DList (nextOf w'.heap) (preOf w'.heap) w'.listRx.header
      ((as ++ bs).map (·.1)).getLast? ((as ++ bs).map (·.1))) :
    FifoOk ⟨w', as ++ bs, s.returned ++ [some x.1], s.oldest ++ [some x.1]⟩
      ↔ w'.listRx.tail = ((as ++ bs).map (·.1)).getLast? := by
  have hxq : x ∈ s.queue := by simp [hsplit]
  constructor
  · intro hf
    exact hf.list.last
  · intro htl
    refine ⟨⟨hlist.chain, hlist.back, htl⟩, fun y hy => ?_, by rw [h.answers], ?_⟩
    · rw [hitems]
      exact h.items y (mem_of_mem_rest hsplit hy)
    · show ((s.returned ++ [some x.1]).filterMap id).Nodup
      rw [List.filterMap_append]
      refine List.nodup_append.mpr ⟨h.once, by simp, ?_⟩
      intro p hp q hq
      have hqx : q = x.1 := by simpa using hq
      rw [hqx]
      rintro rfl
      exact (hinv.gone _ hp).2 (List.mem_map.mpr ⟨x, hxq, rfl⟩)

/-- The invariant holds whichever item was taken out. -/
theorem RecvListInv.taken (h : FifoOk s) (hinv : RecvListInv s) (hsplit : s.queue = as ++ x :: bs)
    (hxnot : x.1 ∉ (as ++ bs).map (·.1)) {w' : World} (hbrk : w'.brk = s.w.brk)
    (hlisten : w'.held .listen = s.w.held .listen)
    (hitems : ∀ q, itemAt w'.heap q = itemAt s.w.heap q) {oldest : List (Option Ptr)} :
    RecvListInv ⟨w', as ++ bs, s.returned ++ [some x.1], oldest⟩ := by
  have hxq : x ∈ s.queue := by simp [hsplit]
  refine ⟨fun p hp => ?_, hlisten.trans hinv.listen,
    fun y hy => hinv.devs y (mem_of_mem_rest hsplit hy), fun p hp => ?_⟩
  · have hnone : itemAt w'.heap p = none := by
      rw [hitems, itemAt, hinv.fresh p (hbrk ▸ hp)]
      rfl
    simpa [itemAt] using hnone
  · show p < w'.brk ∧ p ∉ (as ++ bs).map (·.1)
    rw [hbrk]
    have hp' : p ∈ s.returned.filterMap id ∨ p = x.1 := by
      simpa [List.filterMap_append] using hp
    rcases hp' with hp' | rfl
    · obtain ⟨hlt, hnot⟩ := hinv.gone p hp'
      refine ⟨hlt, fun hm => hnot ?_⟩
      obtain ⟨y, hy, rfl⟩ := List.mem_map.mp hm
      exact List.mem_map.mpr ⟨y, mem_of_mem_rest hsplit hy, rfl⟩
    · exact ⟨h.lt_brk hinv hxq, hxnot⟩

/-- A `link_recv` that takes out an item keeps the queue unless the item was the last of
several. -/
theorem recvListIter_recv_found (h : FifoOk s) (hinv : RecvListInv s)
    (hsplit : s.queue = as ++ x :: bs) (hx : isDev devId x = true)
    (has : ∀ y ∈ as, isDev devId y = false) (hheld : s.w.held .rxList = false) :
    ∃ s', recvListIter s (.recv devId) = some s' ∧ (FifoOk s' ↔ ¬ TakesLast devId s.queue) ∧
      RecvListInv s' := by
  have hxq : x ∈ s.queue := by simp [hsplit]
  have hdev : devId < MAX_EXTBOARD := by
    have hid : x.2.devId = devId := by simpa [isDev] using hx
    rw [← hid]
    exact hinv.devs x hxq
  have hlist := h.list
  rw [hsplit, List.map_append, List.map_cons] at hlist
  have hofDev : ∀ y ∈ s.queue, ofDev s.w.heap devId y.1 = isDev devId y := fun y hy =>
    ofDev_of_itemAt (h.items y hy) devId
  have hfront : ∀ q ∈ as.map (·.1), ofDev s.w.heap devId q = false := by
    intro q hq
    obtain ⟨y, hy, rfl⟩ := List.mem_map.mp hq
    rw [hofDev y (by simp [hsplit, hy]), has y hy]
  obtain ⟨w', hrecv, hw', hitems, htail, hlist'⟩ := linkRecv_found hinv.fresh hlist hheld
    hinv.listen hdev (by rw [hofDev x hxq, hx]) hfront
  obtain ⟨hqueue, hfind, hidx⟩ := oldest_of_split hx has bs
  have hxnot : x.1 ∉ (as ++ bs).map (·.1) := by
    rw [List.map_append]
    exact (List.nodup_middle.mp hlist.chain.nodup).notMem
  have hlast : s.w.listRx.tail = ((as ++ x :: bs).map (·.1)).getLast? := by
    rw [hlist.last, List.map_append, List.map_cons]
  rw [← List.map_append] at htail hlist'
  refine ⟨_, by rw [recvListIter, hrecv]; rfl, ?_, ?_⟩
  · simp only [hsplit, hqueue, hfind]
    rw [show Option.map (·.1) (some x) = some x.1 from rfl,
      FifoOk.taken_iff h hinv hsplit hitems hlist', htail]
    exact tail_iff_not_takesLast hidx hxnot hlast
  · simp only [hsplit, hqueue]
    exact RecvListInv.taken h hinv hsplit hxnot (by rw [hw']; rfl) (by rw [hw']; rfl) hitems

end Found

/-- One call of `link_recv` keeps the queue exactly when it meets `RecvOk`. -/
theorem recvListIter_recv_iff {s : RecvList} (h : FifoOk s) (hinv : RecvListInv s) (devId : Nat) :
    ((∃ s', recvListIter s (.recv devId) = some s' ∧ FifoOk s') ↔
      RecvOk (some s) (.recv devId)) ∧
    ∀ s', recvListIter s (.recv devId) = some s' → RecvListInv s' := by
  have hhead : s.w.listRx.header = none ↔ s.queue = [] := by
    rw [h.list.head_eq]
    cases s.queue <;> simp
  -- The three ways a call can go: empty list, mutex held by an earlier call, search.
  by_cases hq : s.queue = []
  · obtain ⟨s', hs', hf, hi⟩ := recvListIter_recv_none h hinv rfl (by rw [hq]; rfl)
      (linkRecv_none (hhead.mpr hq) devId)
    refine ⟨iff_of_true ⟨s', hs', hf⟩ (Or.inl hq), fun t ht => ?_⟩
    rw [← Option.some.inj (hs'.symm.trans ht)]
    exact hi
  by_cases hheld : s.w.held .rxList = true
  · have hnone : recvListIter s (.recv devId) = none := by
      rw [recvListIter, linkRecv_blocked (fun he => hq (hhead.mp he)) hheld]
      rfl
    rw [hnone]
    refine ⟨iff_of_false (fun ⟨_, he, _⟩ => nomatch he) ?_, fun _ he => nomatch he⟩
    rintro (he | ⟨he, _⟩)
    · exact hq he
    · exact absurd he (by simp [hheld])
  have hfree : s.w.held .rxList = false := by simpa using hheld
  have hok : RecvOk (some s) (.recv devId) ↔ ¬ TakesLast devId s.queue := by
    show (_ ∨ _) ↔ _
    simp only [hq, hfree, true_and, false_or]
  rw [hok]
  cases hfind : s.queue.find? (isDev devId) with
  | none =>
    have hne : s.queue.map (·.1) ≠ [] := by simpa using hq
    have hmiss : ∀ p ∈ s.queue.map (·.1), ofDev s.w.heap devId p = false := by
      intro p hp
      obtain ⟨y, hy, rfl⟩ := List.mem_map.mp hp
      rw [ofDev_of_itemAt (h.items y hy)]
      simpa [isDev] using List.find?_eq_none.mp hfind y hy
    obtain ⟨s', hs', hf, hi⟩ := recvListIter_recv_none h hinv
      (Function.update_of_ne (by decide) _ _) hfind
      (linkRecv_missing hinv.fresh h.list.chain hne hfree hmiss)
    -- No item of the device: the index of the search is the length of the queue.
    have hnot : ¬ TakesLast devId s.queue := by
      rintro ⟨_, hidx⟩
      rw [List.findIdx_eq_length.mpr fun y hy => by simpa using List.find?_eq_none.mp hfind y hy]
        at hidx
      omega
    refine ⟨iff_of_true ⟨s', hs', hf⟩ hnot, fun t ht => ?_⟩
    rw [← Option.some.inj (hs'.symm.trans ht)]
    exact hi
  | some x =>
    obtain ⟨hx, as, bs, hsplit, has⟩ := List.find?_eq_some_iff_append.mp hfind
    obtain ⟨s', hs', hf, hi⟩ := recvListIter_recv_found h hinv hsplit hx
      (fun y hy => by simpa using has y hy) hfree
    refine ⟨⟨fun ⟨t, ht, hft⟩ => ?_, fun hnot => ⟨s', hs', hf.mpr hnot⟩⟩, fun t ht => ?_⟩
    · rw [← Option.some.inj (hs'.symm.trans ht)] at hft
      exact hf.mp hft
    · rw [← Option.some.inj (hs'.symm.trans ht)]
      exact hi

/-- The state is defined and its list is the queue. -/
def Fifo (s : Option RecvList) : Prop := ∃ st, s = some st ∧ FifoOk st

/-- A step keeps the order exactly where the item that is taken is not the last of a longer list. -/
theorem fifo_step_iff (s : Option RecvList) (op : ListOp) (s' : Option RecvList)
    (hinv : ∀ st, s = some st → RecvListInv st) (hf : Fifo s)
    (hstep : recvList.step s op = some s') :
    (Fifo s' ↔ RecvOk s op) ∧ (RecvOk s op → ∀ st, s' = some st → RecvListInv st) := by
  obtain ⟨st, rfl, hst⟩ := hf
  have hi := hinv st rfl
  cases op with
  | append item =>
    have hdev : 1 ≤ item.devId ∧ item.devId < MAX_EXTBOARD := by
      by_contra hbad
      have hnone : recvList.step (some st) (.append item) = none := if_neg hbad
      rw [hnone] at hstep
      exact nomatch hstep
    have hs' : s' = recvListIter st (.append item) := by
      have hsome : recvList.step (some st) (.append item)
          = some (recvListIter st (.append item)) := if_pos hdev
      exact (Option.some.inj (hsome.symm.trans hstep)).symm
    obtain ⟨t, ht, hft, hit⟩ := recvListIter_append hst hi item hdev.2
    rw [hs', ht]
    refine ⟨iff_of_true ⟨t, rfl, hft⟩ trivial, fun _ u hu => ?_⟩
    rw [← Option.some.inj hu]
    exact hit
  | recv devId =>
    have hs' : s' = recvListIter st (.recv devId) := (Option.some.inj hstep).symm
    obtain ⟨hiff, hit⟩ := recvListIter_recv_iff hst hi devId
    rw [hs']
    exact ⟨hiff, fun _ u hu => hit u hu⟩

/-- At the start the order is right. -/
theorem fifo_init : Fifo recvList.init :=
  ⟨_, rfl, ⟨⟨rfl, trivial, rfl⟩, fun _ hx => absurd hx List.not_mem_nil, rfl, List.nodup_nil⟩⟩

/-- At the start the invariant holds. -/
theorem recvListInv_init : ∀ st, recvList.init = some st → RecvListInv st := by
  intro st hst
  rw [← Option.some.inj hst]
  exact ⟨fun _ _ => rfl, rfl, fun _ hx => absurd hx List.not_mem_nil,
    fun _ hp => absurd hp List.not_mem_nil⟩

/-- The receive list as a queue per device. Take any sequence of appends of items of the
devices 1 to 9 and of `link_recv` calls from the empty list. The list is a lossless queue per
device in every state of the run, if and only if every operation of the run meets `RecvOk`. -/
theorem recvList_fifo_iff (ops : List ListOp) (s : Option RecvList)
    (hrun : recvList.exec ops = some s) :
    recvList.Always Fifo ops ↔ recvList.Run RecvOk ops s :=
  Machine.always_iff_run (I := fun s => ∀ st, s = some st → RecvListInv st) fifo_init
    recvListInv_init fifo_step_iff hrun

/-- The theorem applied to two items that are taken out in order. -/
theorem recvList_fifo_iff_two_items :
    ∃ s, recvList.exec [.append ⟨1, [7]⟩, .append ⟨2, [8]⟩, .recv 1, .recv 2] = some s ∧
      (recvList.Always Fifo [.append ⟨1, [7]⟩, .append ⟨2, [8]⟩, .recv 1, .recv 2] ↔
        recvList.Run RecvOk [.append ⟨1, [7]⟩, .append ⟨2, [8]⟩, .recv 1, .recv 2] s) :=
  ⟨_, rfl, recvList_fifo_iff _ _ rfl⟩

/-- Items of the devices 1 and 2 are queued, and the second one is taken out first: the list
has one node, and `tail` is another one. -/
theorem tail_stale_after_recv :
    ¬ ∀ ops s, recvList.exec ops = some s → recvList.Always Fifo ops := by
  intro hclaim
  have hall := hclaim [.append ⟨1, [7]⟩, .append ⟨2, [8]⟩, .recv 2] _ rfl
  obtain ⟨st, heq, hf⟩ := hall _ List.prefix_rfl _ rfl
  have hlast := hf.list.last
  rw [← Option.some.inj heq] at hlast
  exact absurd hlast (by decide)

end LearnGit.Proofs.Uart
