import LearnGit.Proofs.Uart.DataList
import LearnGit.Uart.Link.ThreadTx

/-!
# `LearnGit.Proofs.Uart.ThreadTx`: no outgoing item is stranded or reordered

`threadTx_order`: in every state that `thread_tx`, the `link_send` calls and the
`link_clear_all_list` calls reach, in any order of their steps, a sleeping `thread_tx` has empty
lists, and the items of a destination leave its list in `link_send` order.

The nodes of `list_tx[idx]` are told from those of the other lists by their `dev_id`, which
`link_send` sets to the destination (`NodeOf`). So an operation on one list changes no node of
another one (`Touched`), and the lists can be treated one by one.

`fetch_from_list_header` leaves the `pre` pointer of the new header as it was, so that it points
to a node that is freed later. Nothing reads it: the lists are well formed forwards only.
-/

set_option autoImplicit false

namespace LearnGit.Proofs.Uart

open LearnGit.Lib
open LearnGit.Uart.Link

/-! ### Statement -/

/-- What holds in every state: `thread_tx` sleeps only on empty lists; of each destination the
items taken and those still queued are in `link_send` order; no item was sent twice, so none is
taken twice; an item is taken, cleared or still queued; and `thread_tx` can always go on. -/
structure TxOk (s : TxState) : Prop where
  asleep : s.pc = .idle → s.world.txAlive = false →
    ∀ idx < MAX_EXTBOARD, (s.world.listTx idx).header = none
  order : ∀ idx < MAX_EXTBOARD,
    (s.gone .taken idx ++ txQueue s.world idx).Sublist (s.sent idx)
  once : ∀ idx < MAX_EXTBOARD, (s.sent idx).Nodup
  kept : ∀ idx < MAX_EXTBOARD, ∀ x ∈ s.sent idx,
    x ∈ s.gone .taken idx ∨ x ∈ s.gone .cleared idx ∨ x ∈ txQueue s.world idx
  runs : ∀ ret portClosed, (threadTxStep s ret portClosed).isSome

/-! ### The lists -/

/-- A node for the destination `idx`. -/
def NodeOf (w : World) (idx : Nat) (p : Ptr) : Prop :=
  ∃ item, itemAt w.heap p = some item ∧ item.devId = idx

/-- `list_tx[idx]` is a list through `ps`, all nodes for its destination. -/
structure TxListOk (w : World) (idx : Nat) (ps : List Ptr) : Prop where
  chain : Seg (nextOf w.heap) (w.listTx idx).header ps none
  last : (w.listTx idx).tail = ps.getLast?
  own : ∀ p ∈ ps, NodeOf w idx p

/-- The ten lists. -/
structure TxListsOk (w : World) (q : Nat → List Ptr) : Prop where
  fresh : ∀ p, w.brk ≤ p → w.heap p = none
  lists : ∀ idx < MAX_EXTBOARD, TxListOk w idx (q idx)

/-- `w'` differs from `w` at most in `list_tx[idx]` and in the nodes `ps`. -/
structure Touched (w w' : World) (idx : Nat) (ps : List Ptr) : Prop where
  brk : w'.brk = w.brk
  held : w'.held = w.held
  alive : w'.txAlive = w.txAlive
  lists : ∀ j, j ≠ idx → w'.listTx j = w.listTx j
  heap : ∀ p, p ∉ ps → w'.heap p = w.heap p

/-- The nodes of two calls. -/
theorem Touched.trans {w w' w'' : World} {idx : Nat} {ps ps' : List Ptr}
    (h : Touched w w' idx ps) (h' : Touched w' w'' idx ps') : Touched w w'' idx (ps ++ ps') := by
  refine ⟨h'.brk.trans h.brk, h'.held.trans h.held, h'.alive.trans h.alive, fun j hj => ?_,
    fun p hp => ?_⟩
  · rw [h'.lists j hj, h.lists j hj]
  · rw [List.mem_append, not_or] at hp
    rw [h'.heap p hp.2, h.heap p hp.1]

/-- The item of a node depends on the node only. -/
theorem itemAt_congr {heap heap' : Ptr → Option ProDataInfo} {p : Ptr} (h : heap' p = heap p) :
    itemAt heap' p = itemAt heap p := by
  rw [itemAt, itemAt, h]

/-- A node with the same item is one of the same list. -/
theorem NodeOf.congr {w w' : World} {idx : Nat} {p : Ptr} (h : NodeOf w idx p)
    (heq : itemAt w'.heap p = itemAt w.heap p) : NodeOf w' idx p := by
  obtain ⟨item, hitem, hdev⟩ := h
  exact ⟨item, heq.trans hitem, hdev⟩

/-- A node belongs to one destination. -/
theorem NodeOf.unique {w : World} {i j : Nat} {p : Ptr} (hi : NodeOf w i p) (hj : NodeOf w j p) :
    i = j := by
  obtain ⟨a, ha, hia⟩ := hi
  obtain ⟨b, hb, hjb⟩ := hj
  rw [ha] at hb
  rw [← hia, ← hjb, Option.some.inj hb]

/-- A list depends on its header and its nodes only. -/
theorem TxListOk.congr {w w' : World} {idx : Nat} {ps : List Ptr} (h : TxListOk w idx ps)
    (hlist : w'.listTx idx = w.listTx idx) (hheap : ∀ p ∈ ps, w'.heap p = w.heap p) :
    TxListOk w' idx ps := by
  refine ⟨?_, by rw [hlist, h.last], fun p hp => (h.own p hp).congr (itemAt_congr (hheap p hp))⟩
  rw [hlist]
  refine h.chain.congr fun p hp => ?_
  rw [nextOf, nextOf, hheap p hp]

/-- A list is empty exactly when its header is NULL. -/
theorem TxListOk.header_eq_none_iff {w : World} {idx : Nat} {ps : List Ptr}
    (h : TxListOk w idx ps) : (w.listTx idx).header = none ↔ ps = [] := by
  have hhead : (w.listTx idx).header = ps.head? := by simpa using h.chain.head_eq
  rw [hhead, List.head?_eq_none_iff]

namespace TxListsOk

variable {w w' : World} {q : Nat → List Ptr}

/-- A node has been allocated. -/
theorem lt_brk (h : TxListsOk w q) {idx : Nat} {p : Ptr} (hp : NodeOf w idx p) : p < w.brk := by
  rcases Nat.lt_or_ge p w.brk with hlt | hge
  · exact hlt
  · obtain ⟨item, hitem, _⟩ := hp
    rw [itemAt, h.fresh p hge] at hitem
    cases hitem

/-- The lists are in the heap, and the other globals do not matter. -/
theorem congr (h : TxListsOk w q) (hheap : w'.heap = w.heap) (hbrk : w'.brk = w.brk)
    (hlists : w'.listTx = w.listTx) : TxListsOk w' q := by
  constructor
  · intro p hp
    rw [hheap]
    exact h.fresh p (hbrk ▸ hp)
  · intro idx hidx
    exact (h.lists idx hidx).congr (by rw [hlists]) fun p _ => by rw [hheap]

/-- The content of a list is that of its nodes. -/
theorem txQueue_eq (h : TxListsOk w q) {idx : Nat} (hidx : idx < MAX_EXTBOARD) :
    txQueue w idx = (q idx).filterMap (entryAt w.heap) := by
  have hok := h.lists idx hidx
  rw [txQueue, walk_of_seg hok.chain w.brk (seg_length_le hok.chain h.fresh)]

/-- An operation on one list keeps the others. -/
theorem touched (h : TxListsOk w q) {idx : Nat} {ps ps' : List Ptr} (ht : Touched w w' idx ps)
    (hps : ∀ p ∈ ps, NodeOf w idx p) (hok : TxListOk w' idx ps') :
    TxListsOk w' (Function.update q idx ps') := by
  constructor
  · intro p hp
    rw [ht.brk] at hp
    by_cases hmem : p ∈ ps
    · exact absurd (h.lt_brk (hps p hmem)) (Nat.not_lt.mpr hp)
    · rw [ht.heap p hmem, h.fresh p hp]
  · intro j hj
    by_cases hji : j = idx
    · rw [hji, Function.update_self]
      exact hok
    · rw [Function.update_of_ne hji]
      have hother := h.lists j hj
      -- A node on another list is of another destination, so it was not touched.
      refine hother.congr (ht.lists j hji) fun p hp => ht.heap p fun hmem => ?_
      exact hji ((hother.own p hp).unique (hps p hmem))

end TxListsOk

/-! ### The operations -/

/-- What is to be sent depends on the item only. -/
theorem entryAt_congr {heap heap' : Ptr → Option ProDataInfo} {p : Ptr}
    (h : itemAt heap' p = itemAt heap p) : entryAt heap' p = entryAt heap p := by
  rw [entryAt, entryAt, h]

/-- Nothing is taken from an empty list. -/
theorem fetchFromListHeader_nil {w : World} {idx : Nat} (h : TxListOk w idx []) :
    fetchFromListHeader w (.tx idx) = some (w, none) := by
  have hhead : (w.list (.tx idx)).header = none := h.header_eq_none_iff.mpr rfl
  simp only [fetchFromListHeader, hhead]

/-- `fetch_from_list_header` takes the first node off the list. -/
theorem fetchFromListHeader_cons {w : World} {idx : Nat} {p : Ptr} {ps : List Ptr}
    (h : TxListOk w idx (p :: ps)) :
    ∃ w', fetchFromListHeader w (.tx idx) = some (w', some p) ∧ TxListOk w' idx ps ∧
      Touched w w' idx [p] ∧ itemAt w'.heap p = itemAt w.heap p := by
  obtain ⟨hhead, r, hr, hrest⟩ := h.chain
  obtain ⟨n, hn, hnext⟩ : ∃ n, w.heap p = some n ∧ n.next = r := by
    simpa [nextOf, Option.map_eq_some_iff] using hr
  have hnot : p ∉ ps := (List.nodup_cons.mp h.chain.nodup).1
  have hreq : r = ps.head? := by simpa using hrest.head_eq
  have hset : (w.setList (.tx idx) ⟨r, if r = none then none else (w.listTx idx).tail⟩).heap p
      = some n := by
    rw [setList_heap, hn]
  refine ⟨(w.setList (.tx idx) ⟨r, if r = none then none else (w.listTx idx).tail⟩).setNode p
    { n with next := none, pre := none }, ?_, ⟨?_, ?_, ?_⟩, ⟨rfl, rfl, rfl, ?_, ?_⟩, ?_⟩
  · simp only [fetchFromListHeader, World.list, hhead, hn, hnext, Option.bind_eq_bind,
      Option.bind_some]
    rw [modifyNode_eq hset]
    rfl
  · show Seg _ (Function.update w.listTx idx _ idx).header ps none
    rw [Function.update_self, setNode_heap, setList_heap]
    exact hrest.congr fun p' hp' => nextOf_update_of_ne fun he => hnot (he ▸ hp')
  · show (Function.update w.listTx idx _ idx).tail = _
    rw [Function.update_self]
    show (if r = none then none else (w.listTx idx).tail) = _
    rw [h.last, hreq]
    cases ps with
    | nil => rfl
    | cons p' ps => simp [List.getLast?_cons]
  · intro p' hp'
    have hne : p' ≠ p := fun he => hnot (he ▸ hp')
    refine (h.own p' (List.mem_cons_of_mem _ hp')).congr (itemAt_congr ?_)
    rw [setNode_heap, setList_heap, Function.update_of_ne hne]
  · intro j hj
    show Function.update w.listTx idx _ j = _
    rw [Function.update_of_ne hj]
  · intro p' hp'
    rw [setNode_heap, setList_heap, Function.update_of_ne (by simpa using hp')]
  · rw [setNode_heap, setList_heap]
    exact itemAt_update hn rfl

/-- The loop of `clear_tx_list` empties the list. -/
theorem clearTxListLoop_spec {idx : Nat} (ps : List Ptr) :
    ∀ (w : World) (rounds : Nat), TxListOk w idx ps → ps.length < rounds →
      ∃ w', clearTxListLoop idx rounds w = some w' ∧ TxListOk w' idx [] ∧ Touched w w' idx ps := by
  induction ps with
  | nil =>
    intro w rounds h hr
    obtain ⟨rounds, rfl⟩ : ∃ r, rounds = r + 1 := ⟨rounds - 1, by simp at hr; omega⟩
    refine ⟨w, ?_, h, ⟨rfl, rfl, rfl, fun _ _ => rfl, fun _ _ => rfl⟩⟩
    simp only [clearTxListLoop, fetchFromListHeader_nil h, Option.bind_eq_bind, Option.bind_some]
    rfl
  | cons p ps ih =>
    intro w rounds h hr
    obtain ⟨rounds, rfl⟩ : ∃ r, rounds = r + 1 := ⟨rounds - 1, by simp at hr; omega⟩
    have hnot : p ∉ ps := (List.nodup_cons.mp h.chain.nodup).1
    obtain ⟨w₁, hfetch, hok, ht, _⟩ := fetchFromListHeader_cons h
    -- The freed node is no longer on the list.
    have hfree : TxListOk (w₁.free p) idx ps :=
      hok.congr rfl fun p' hp' => Function.update_of_ne (ne_of_mem_of_not_mem hp' hnot) _ _
    have htfree : Touched w₁ (w₁.free p) idx [p] := by
      refine ⟨rfl, rfl, rfl, fun _ _ => rfl, fun p' hp' => ?_⟩
      exact Function.update_of_ne (by simpa using hp') _ _
    obtain ⟨w', hloop, hempty, ht'⟩ := ih _ rounds hfree (by simpa using hr)
    refine ⟨w', ?_, hempty, ?_⟩
    · simp only [clearTxListLoop, hfetch, Option.bind_eq_bind, Option.bind_some]
      exact hloop
    · have hall := (ht.trans htfree).trans ht'
      exact ⟨hall.brk, hall.held, hall.alive, hall.lists, fun p' hp' => hall.heap p' (by
        simp only [List.mem_cons, not_or] at hp'
        simp [hp'.1, hp'.2])⟩

/-- `w'` is `w` with the same mutexes held again, after a critical section. -/
theorem Touched.unlock {w w' : World} {idx : Nat} {ps : List Ptr} {m : Mutex}
    (hfree : w.held m = false)
    (h : Touched { w with held := Function.update w.held m true } w' idx ps) :
    Touched w (w'.unlock m) idx ps := by
  refine ⟨h.brk, ?_, h.alive, h.lists, h.heap⟩
  show Function.update w'.held m false = w.held
  rw [h.held]
  exact update_lock_unlock hfree

/-- A clearing empties its list. -/
theorem clearSection_spec {w : World} {q : Nat → List Ptr} (h : TxListsOk w q)
    (hfree : w.held .txList = false) {idx : Nat} (hidx : idx < MAX_EXTBOARD) :
    ∃ w', clearSection w idx = some w' ∧ TxListsOk w' (Function.update q idx []) ∧
      Touched w w' idx (q idx) := by
  have hok := h.lists idx hidx
  have hlen := seg_length_le hok.chain h.fresh
  have hlocked : TxListOk { w with held := Function.update w.held .txList true } idx (q idx) :=
    ⟨hok.chain, hok.last, hok.own⟩
  obtain ⟨w', hloop, hempty, ht⟩ :=
    clearTxListLoop_spec (q idx) _ _ hlocked (Nat.lt_succ_of_le hlen)
  have ht' := ht.unlock hfree
  refine ⟨w'.unlock .txList, ?_, h.touched ht' hok.own ⟨hempty.chain, hempty.last, hempty.own⟩, ht'⟩
  simp only [clearSection, lock_eq hfree, Option.bind_eq_bind, Option.bind_some, clearTxList, hloop]
  rfl

/-- Nothing is taken from an empty list. -/
theorem fetchSection_nil {w : World} {q : Nat → List Ptr} (h : TxListsOk w q)
    (hfree : w.held .txList = false) {idx : Nat} (hidx : idx < MAX_EXTBOARD) (hq : q idx = []) :
    fetchSection w idx = some (w, none) := by
  have hok := h.lists idx hidx
  rw [hq] at hok
  have hlocked : TxListOk { w with held := Function.update w.held .txList true } idx [] :=
    ⟨hok.chain, hok.last, hok.own⟩
  simp only [fetchSection, lock_eq hfree, Option.bind_eq_bind, Option.bind_some,
    fetchFromListHeader_nil hlocked]
  show some (({ w with held := _ } : World), none) = _
  rw [update_lock_unlock hfree]

/-- The first node is taken from its list. -/
theorem fetchSection_cons {w : World} {q : Nat → List Ptr} (h : TxListsOk w q)
    (hfree : w.held .txList = false) {idx : Nat} (hidx : idx < MAX_EXTBOARD) {p : Ptr}
    {ps : List Ptr} (hq : q idx = p :: ps) :
    ∃ w', fetchSection w idx = some (w', some p) ∧ TxListsOk w' (Function.update q idx ps) ∧
      Touched w w' idx [p] ∧ itemAt w'.heap p = itemAt w.heap p := by
  have hok := h.lists idx hidx
  rw [hq] at hok
  have hlocked : TxListOk { w with held := Function.update w.held .txList true } idx (p :: ps) :=
    ⟨hok.chain, hok.last, hok.own⟩
  obtain ⟨w', hfetch, hok', ht, hitem⟩ := fetchFromListHeader_cons hlocked
  have ht' := ht.unlock hfree
  have hown : ∀ p' ∈ [p], NodeOf w idx p' := by
    intro p' hp'
    exact hok.own p' (by simpa using Or.inl (List.mem_singleton.mp hp'))
  refine ⟨w'.unlock .txList, ?_, h.touched ht' hown ⟨hok'.chain, hok'.last, hok'.own⟩, ht', hitem⟩
  simp only [fetchSection, lock_eq hfree, Option.bind_eq_bind, Option.bind_some, hfetch]
  rfl

/-- `append_to_list_tail` puts a new node at the end of its list. -/
theorem appendToListTail_spec {w : World} {q : Nat → List Ptr} (h : TxListsOk w q) {idx : Nat}
    (hidx : idx < MAX_EXTBOARD) {p : Ptr} (hp : NodeOf w idx p) (hnot : p ∉ q idx) :
    ∃ w', appendToListTail w (.tx idx) p = some w' ∧
      TxListsOk w' (Function.update q idx (q idx ++ [p])) ∧ w'.brk = w.brk ∧ w'.held = w.held ∧
      ∀ p', itemAt w'.heap p' = itemAt w.heap p' := by
  have hok := h.lists idx hidx
  have hsome : (w.heap p).isSome := by
    obtain ⟨item, hitem, _⟩ := hp
    obtain ⟨n, hn, _⟩ := Option.map_eq_some_iff.mp hitem
    rw [hn]
    rfl
  refine ⟨_, appendToListTail_eq (.tx idx) hok.chain hok.last hsome hnot, ?_, rfl, rfl,
    fun p' => itemAt_appendHeap _ _ _ p'⟩
  have ht : Touched w (({ w with
      heap := appendHeap w.heap (w.list (.tx idx)).tail p } : World).setList (.tx idx)
      ⟨(w.list (.tx idx)).header.or (some p), some p⟩) idx (p :: (w.listTx idx).tail.toList) := by
    refine ⟨rfl, rfl, rfl, fun j hj => Function.update_of_ne hj _ _, fun p' hp' => ?_⟩
    simp only [List.mem_cons, Option.mem_toList, not_or] at hp'
    show appendHeap w.heap (w.listTx idx).tail p p' = w.heap p'
    rw [appendHeap, if_neg hp'.1, if_neg hp'.2]
  have hown : ∀ p' ∈ p :: (w.listTx idx).tail.toList, NodeOf w idx p' := by
    intro p' hp'
    rcases List.mem_cons.mp hp' with rfl | hp'
    · exact hp
    · rw [hok.last, Option.mem_toList] at hp'
      exact hok.own p' (List.mem_of_getLast? hp')
  refine h.touched ht hown ⟨?_, ?_, ?_⟩
  · show Seg (nextOf (appendHeap w.heap (w.listTx idx).tail p))
      (Function.update w.listTx idx _ idx).header (q idx ++ [p]) none
    rw [Function.update_self]
    refine hok.chain.snoc hok.last (fun p' hp' htail => ?_) (fun t htail => ?_) ?_
    · exact nextOf_appendHeap (ne_of_mem_of_not_mem hp' hnot) htail
    · have hmem : t ∈ q idx := List.mem_of_getLast? (hok.last.symm.trans htail)
      obtain ⟨n, hn⟩ := seg_node hok.chain hmem
      rw [htail]
      exact nextOf_appendHeap_tail (ne_of_mem_of_not_mem hmem hnot) (by rw [hn]; rfl)
    · exact nextOf_appendHeap_self hsome
  · show (Function.update w.listTx idx _ idx).tail = _
    rw [Function.update_self, List.getLast?_append]
    rfl
  · intro p' hp'
    have hnode : NodeOf w idx p' := by
      rcases List.mem_append.mp hp' with hp' | hp'
      · exact hok.own p' hp'
      · rw [List.mem_singleton.mp hp']
        exact hp
    exact hnode.congr (itemAt_appendHeap _ _ _ p')

/-- `malloc` of a node keeps the lists. -/
theorem TxListsOk.malloc {w : World} {q : Nat → List Ptr} (h : TxListsOk w q) (n : ProDataInfo) :
    TxListsOk (w.malloc n) q := by
  constructor
  · intro p hp
    have hle : w.brk + 1 ≤ p := hp
    show Function.update w.heap w.brk (some n) p = none
    rw [Function.update_of_ne (Nat.ne_of_gt hle), h.fresh p (Nat.le_of_succ_le hle)]
  · intro idx hidx
    refine (h.lists idx hidx).congr rfl fun p hp => Function.update_of_ne ?_ _ _
    exact Nat.ne_of_lt (h.lt_brk ((h.lists idx hidx).own p hp))

/-- A `link_send` whose allocations succeed appends its item and sets `tx_alive`. -/
theorem linkSend_appends {w : World} {q : Nat → List Ptr} (h : TxListsOk w q)
    (hfree : w.held .txList = false) (dst : Fin MAX_EXTBOARD) {buf : List Byte}
    (hlen : ¬buf.length = 0) :
    ∃ w', linkSend w true true dst.val (some buf) = some (w', 0) ∧
      TxListsOk w' (Function.update q dst.val (q dst.val ++ [w.brk])) ∧ w'.brk = w.brk + 1 ∧
      w'.held = w.held ∧ w'.txAlive = true ∧ itemAt w'.heap w.brk = some ⟨dst.val, buf⟩ ∧
      ∀ p, p ≠ w.brk → itemAt w'.heap p = itemAt w.heap p := by
  have hdev : (((dst.val : Int) % 256).toNat) = dst.val := by
    have := dst.isLt
    simp only [MAX_EXTBOARD] at this
    omega
  have hrange : (0 : Int) ≤ dst.val ∧ (dst.val : Int) < MAX_EXTBOARD := by
    have := dst.isLt
    omega
  obtain ⟨n, hn⟩ : ∃ n : ProDataInfo, n = { devId := ((dst.val : Int) % 256).toNat, data := buf } :=
    ⟨_, rfl⟩
  have hfree' : (w.malloc n).held .txList = false := hfree
  -- The node is at the address `brk`, and the mutex is taken.
  obtain ⟨w₁, hw₁⟩ : ∃ w₁ : World,
      w₁ = { w.malloc n with held := Function.update (w.malloc n).held .txList true } := ⟨_, rfl⟩
  have hok₁ : TxListsOk w₁ q := by
    rw [hw₁]
    exact (h.malloc n).congr rfl rfl rfl
  have hitem : itemAt w₁.heap w.brk = some ⟨dst.val, buf⟩ := by
    rw [hw₁]
    simp [itemAt, itemOf, World.malloc, hn, hdev]
  have hnot : w.brk ∉ q dst.val := fun hmem =>
    Nat.lt_irrefl _ (h.lt_brk ((h.lists dst.val dst.isLt).own _ hmem))
  have hnode : NodeOf w₁ dst.val w.brk := ⟨_, hitem, rfl⟩
  obtain ⟨w', happend, hok', hbrk, hheld, hitems⟩ :=
    appendToListTail_spec hok₁ dst.isLt hnode hnot
  obtain ⟨w'', hw''⟩ : ∃ w'' : World,
      w'' = (if w'.txAlive then w' else { w' with txAlive := true }) := ⟨_, rfl⟩
  have hcases : w'' = { w' with txAlive := true } := by
    cases halive : w'.txAlive with
    | true => rw [hw'', halive, if_pos rfl, ← halive]
    | false => rw [hw'', halive]; rfl
  refine ⟨w''.unlock .txList, ?_, ?_, ?_, ?_, ?_, ?_, ?_⟩
  · simp only [linkSend, hlen, if_false, Bool.not_true, Bool.false_eq_true, ← hn, lock_eq hfree',
      Option.bind_eq_bind, Option.bind_some, if_pos hrange, Int.toNat_natCast, ← hw₁, happend,
      ← hw'']
    rfl
  · rw [hcases]
    exact hok'.congr rfl rfl rfl
  · rw [hcases]
    show w'.brk = _
    rw [hbrk, hw₁]
    rfl
  · rw [hcases]
    show Function.update w'.held .txList false = w.held
    rw [hheld, hw₁]
    exact update_lock_unlock hfree
  · rw [hcases]
    rfl
  · rw [hcases]
    exact (hitems _).trans hitem
  · intro p hp
    rw [hcases]
    refine (hitems p).trans (itemAt_congr ?_)
    rw [hw₁]
    exact Function.update_of_ne hp _ _

/-- `link_send` returns without an item on the list, or appends its item and sets `tx_alive`. -/
theorem linkSend_spec {w : World} {q : Nat → List Ptr} (h : TxListsOk w q)
    (hfree : w.held .txList = false) (mallocOk dataOk : Bool) (dst : Fin MAX_EXTBOARD)
    (buf : Option (List Byte)) :
    (∃ ret, linkSend w mallocOk dataOk dst.val buf = some (w, ret)) ∨
    ∃ w' ret item, linkSend w mallocOk dataOk dst.val buf = some (w', ret) ∧
      TxListsOk w' (Function.update q dst.val (q dst.val ++ [w.brk])) ∧ w'.brk = w.brk + 1 ∧
      w'.held = w.held ∧ w'.txAlive = true ∧ itemAt w'.heap w.brk = some item ∧
      ∀ p, p ≠ w.brk → itemAt w'.heap p = itemAt w.heap p := by
  cases buf with
  | none => exact Or.inl ⟨0, rfl⟩
  | some buf =>
    by_cases hlen : buf.length = 0
    · exact Or.inl ⟨0, by simp only [linkSend, hlen, if_true]⟩
    cases mallocOk with
    | false => exact Or.inl ⟨-1, by simp [linkSend, hlen]⟩
    | true =>
      cases dataOk with
      | false => exact Or.inl ⟨-2, by simp [linkSend, hlen]⟩
      | true =>
        obtain ⟨w', hsend⟩ := linkSend_appends h hfree dst hlen
        exact Or.inr ⟨w', 0, _, hsend⟩

/-! ### The invariant -/

/-- The item `thread_tx` holds is for the list it works on, and no longer on it. -/
def PcOk (w : World) (q : Nat → List Ptr) : ThreadTxPc → Prop
  | .fetch idx => idx < MAX_EXTBOARD
  | .transmit idx p | .clear idx p | .mark idx p _ | .release idx p =>
    idx < MAX_EXTBOARD ∧ NodeOf w idx p ∧ p ∉ q idx
  | .check | .idle => True

/-- The invariant, with the nodes of the lists. -/
structure TxInv (s : TxState) (q : Nat → List Ptr) : Prop where
  lists : TxListsOk s.world q
  unlocked : ∀ m, s.world.held m = false
  split : ∀ idx < MAX_EXTBOARD,
    s.sent idx = (s.removed idx).map Prod.fst ++ (q idx).filterMap (entryAt s.world.heap)
  sorted : ∀ idx < MAX_EXTBOARD, (s.sent idx).Pairwise fun a b => a.1 < b.1
  below : ∀ idx < MAX_EXTBOARD, ∀ x ∈ s.sent idx, x.1 < s.world.brk
  pc : PcOk s.world q s.pc
  asleep : s.pc = .idle → s.world.txAlive = false → ∀ idx < MAX_EXTBOARD, q idx = []
  clears : ∀ i ∈ s.clears, i < MAX_EXTBOARD

/-- At the start the lists are empty. -/
theorem txInv_init : TxInv TxState.init fun _ => [] := by
  refine ⟨⟨fun _ _ => rfl, fun _ _ => ⟨rfl, rfl, fun _ hp => ?_⟩⟩, fun _ => rfl, fun _ _ => rfl,
    fun _ _ => List.Pairwise.nil, fun _ _ x hx => ?_, ?_, fun _ _ _ _ => rfl, fun _ hi => ?_⟩
  · exact absurd hp List.not_mem_nil
  · exact absurd hx List.not_mem_nil
  · show 0 < MAX_EXTBOARD
    decide
  · exact absurd hi List.not_mem_nil

/-- The items that went one way are among those that left, in the same order. -/
theorem gone_sublist (s : TxState) (fate : Fate) (idx : Nat) :
    (s.gone fate idx).Sublist ((s.removed idx).map Prod.fst) :=
  (List.filter_sublist).map _

/-- What was removed has been taken or cleared. -/
theorem mem_gone {s : TxState} {idx : Nat} {x : Ptr × Item}
    (h : x ∈ (s.removed idx).map Prod.fst) : x ∈ s.gone .taken idx ∨ x ∈ s.gone .cleared idx := by
  obtain ⟨⟨y, fate⟩, hmem, rfl⟩ := List.mem_map.mp h
  cases fate with
  | taken => exact Or.inl (List.mem_map.mpr ⟨(y, .taken), by simp [hmem], rfl⟩)
  | cleared => exact Or.inr (List.mem_map.mpr ⟨(y, .cleared), by simp [hmem], rfl⟩)

/-- A frame for the entries of a list. -/
theorem filterMap_entryAt_congr {heap heap' : Ptr → Option ProDataInfo} {ps : List Ptr}
    (h : ∀ p ∈ ps, itemAt heap' p = itemAt heap p) :
    ps.filterMap (entryAt heap') = ps.filterMap (entryAt heap) :=
  List.filterMap_congr fun p hp => entryAt_congr (h p hp)

/-- An operation on one list keeps the entries of the others. -/
theorem TxListsOk.entries_eq {w w' : World} {q : Nat → List Ptr} (h : TxListsOk w q) {idx j : Nat}
    {ps : List Ptr} (ht : Touched w w' idx ps) (hps : ∀ p ∈ ps, NodeOf w idx p)
    (hj : j < MAX_EXTBOARD) (hne : j ≠ idx) :
    (q j).filterMap (entryAt w'.heap) = (q j).filterMap (entryAt w.heap) := by
  refine filterMap_entryAt_congr fun p hp => itemAt_congr (ht.heap p fun hmem => ?_)
  exact hne (((h.lists j hj).own p hp).unique (hps p hmem))

variable {s : TxState} {q : Nat → List Ptr}

/-- What `thread_tx` holds stays as it is where its node stays off the list. -/
theorem PcOk.keep {w w' : World} {q' : Nat → List Ptr} {pc : ThreadTxPc} (h : PcOk w q pc)
    (hkeep : ∀ i p, NodeOf w i p → p ∉ q i → NodeOf w' i p ∧ p ∉ q' i) : PcOk w' q' pc := by
  cases pc with
  | fetch i => exact h
  | transmit i p => exact ⟨h.1, hkeep i p h.2.1 h.2.2⟩
  | clear i p => exact ⟨h.1, hkeep i p h.2.1 h.2.2⟩
  | mark i p failed => exact ⟨h.1, hkeep i p h.2.1 h.2.2⟩
  | release i p => exact ⟨h.1, hkeep i p h.2.1 h.2.2⟩
  | check => trivial
  | idle => trivial

/-- Touching nodes of a list does not touch what `thread_tx` holds. -/
theorem PcOk.touched {w w' : World} {pc : ThreadTxPc} (h : PcOk w q pc) {idx : Nat}
    {ps ps' : List Ptr} (ht : Touched w w' idx ps) (hps : ∀ p ∈ ps, NodeOf w idx p ∧ p ∈ q idx)
    (hsub : ps' ⊆ q idx) : PcOk w' (Function.update q idx ps') pc := by
  refine h.keep fun i p hnode hnot => ?_
  have hpt : p ∉ ps := fun hmem => by
    have hidx := hnode.unique (hps p hmem).1
    exact hnot (hidx ▸ (hps p hmem).2)
  refine ⟨hnode.congr (itemAt_congr (ht.heap p hpt)), ?_⟩
  by_cases hii : i = idx
  · rw [hii, Function.update_self]
    exact fun hmem => hnot (hii ▸ hsub hmem)
  · rw [Function.update_of_ne hii]
    exact hnot

/-- A step that takes the first items off a list. -/
theorem TxInv.shrink (h : TxInv s q) {w' : World} {idx : Nat} {ps ps' : List Ptr}
    {items : List (Ptr × Item)} (fate : Fate) {pc : ThreadTxPc} {clears : List Nat}
    (hidx : idx < MAX_EXTBOARD) (ht : Touched s.world w' idx ps) (hps : ps ⊆ q idx)
    (hsub : ps' ⊆ q idx) (hlists : TxListsOk w' (Function.update q idx ps'))
    (hitems : (q idx).filterMap (entryAt s.world.heap)
      = items ++ ps'.filterMap (entryAt w'.heap))
    (hpc : PcOk w' (Function.update q idx ps') pc) (hidle : pc = .idle → s.pc = .idle)
    (hclears : ∀ i ∈ clears, i < MAX_EXTBOARD) :
    TxInv { s.remove idx items fate with world := w', pc := pc, clears := clears }
      (Function.update q idx ps') := by
  have hown : ∀ p ∈ ps, NodeOf s.world idx p := fun p hp => (h.lists.lists idx hidx).own p (hps hp)
  refine ⟨hlists, fun m => ?_, fun j hj => ?_, h.sorted, fun j hj x hx => ?_, hpc, ?_, hclears⟩
  · show w'.held m = false
    rw [ht.held, h.unlocked m]
  · show s.sent j = (Function.update s.removed idx _ j).map Prod.fst ++ _
    by_cases hji : j = idx
    · rw [hji, Function.update_self, Function.update_self, h.split idx hidx, hitems,
        List.map_append, List.append_assoc, List.map_map]
      congr 2
      exact (List.map_id items).symm
    · rw [Function.update_of_ne hji, Function.update_of_ne hji, h.split j hj,
        ← h.lists.entries_eq ht hown hj hji]
  · show x.1 < w'.brk
    rw [ht.brk]
    exact h.below j hj x hx
  · intro hpcIdle halive j hj
    -- A sleeping `thread_tx` had empty lists before, and nothing was added.
    have hempty := h.asleep (hidle hpcIdle) (ht.alive.symm.trans halive)
    by_cases hji : j = idx
    · rw [hji, Function.update_self]
      rw [hempty idx hidx] at hsub
      exact List.subset_nil.mp hsub
    · rw [Function.update_of_ne hji]
      exact hempty j hj

/-- A step that leaves the lists alone. -/
theorem TxInv.same (h : TxInv s q) {w' : World} {pc : ThreadTxPc} (hheap : w'.heap = s.world.heap)
    (hbrk : w'.brk = s.world.brk) (hlists : w'.listTx = s.world.listTx)
    (hheld : w'.held = s.world.held) (hpc : PcOk w' q pc)
    (hasleep : pc = .idle → w'.txAlive = false → ∀ idx < MAX_EXTBOARD, q idx = []) :
    TxInv { s with world := w', pc := pc } q := by
  refine ⟨h.lists.congr hheap hbrk hlists, fun m => ?_, fun j hj => ?_, h.sorted,
    fun j hj x hx => ?_, hpc, hasleep, h.clears⟩
  · show w'.held m = false
    rw [hheld, h.unlocked m]
  · show s.sent j = (s.removed j).map Prod.fst ++ (q j).filterMap (entryAt w'.heap)
    rw [hheap, h.split j hj]
  · show x.1 < w'.brk
    rw [hbrk]
    exact h.below j hj x hx

/-- A step of a `link_clear_all_list` call or of `thread_tx` that clears a list. -/
theorem TxInv.clearList (h : TxInv s q) {idx : Nat} (hidx : idx < MAX_EXTBOARD)
    (pc : ThreadTxPc) (clears : List Nat)
    (hpc : ∀ {w' : World} {q' : Nat → List Ptr}, PcOk w' q' s.pc → PcOk w' q' pc)
    (hidle : pc = .idle → s.pc = .idle) (hclears : ∀ i ∈ clears, i < MAX_EXTBOARD) :
    ∃ w', clearSection s.world idx = some w' ∧
      TxInv { s.remove idx (txQueue s.world idx) .cleared with
        world := w', pc := pc, clears := clears } (Function.update q idx []) := by
  obtain ⟨w', hclear, hlists, ht⟩ := clearSection_spec h.lists (h.unlocked .txList) hidx
  have hown := (h.lists.lists idx hidx).own
  refine ⟨w', hclear, h.shrink .cleared hidx ht (List.Subset.refl _) (List.nil_subset _) hlists ?_
    (hpc ?_) hidle hclears⟩
  · rw [h.lists.txQueue_eq hidx, List.filterMap_nil, List.append_nil]
  · exact h.pc.touched ht (fun p hp => ⟨hown p hp, hp⟩) (List.nil_subset _)

/-! ### The steps -/

/-- The marks of a node are set under their lock. -/
theorem markSection_eq {w : World} {p : Ptr} {n : ProDataInfo} (hfree : w.held .listen = false)
    (hn : w.heap p = some n) (failed portClosed : Bool) :
    ∃ w', markSection w p failed portClosed = some w' ∧ w'.heap = w.heap ∧ w'.brk = w.brk ∧
      w'.listTx = w.listTx ∧ w'.held = w.held := by
  simp only [markSection, lock_eq hfree, Option.bind_eq_bind, Option.bind_some, hn]
  exact ⟨_, rfl, rfl, rfl, rfl, update_lock_unlock hfree⟩

/-- Where `thread_tx` looks into a list. -/
theorem threadTx_fetch (h : TxInv s q) {idx : Nat} (hpc : s.pc = .fetch idx) (ret : Int)
    (portClosed : Bool) :
    ∃ s' q', threadTxStep s ret portClosed = some s' ∧ TxInv s' q' := by
  have hok := h.pc
  rw [hpc] at hok
  have hidx : idx < MAX_EXTBOARD := hok
  have hfree := h.unlocked .txList
  simp only [threadTxStep, hpc]
  cases hq : q idx with
  | nil =>
    rw [fetchSection_nil h.lists hfree hidx hq]
    refine ⟨_, q, rfl, h.same rfl rfl rfl rfl ?_ ?_⟩
    · split
      · assumption
      · trivial
    · intro hidle
      split at hidle <;> exact nomatch hidle
  | cons p ps =>
    obtain ⟨w', hfetch, hlists, ht, hitem⟩ := fetchSection_cons h.lists hfree hidx hq
    have hlist := h.lists.lists idx hidx
    rw [hq] at hlist
    have hnot : p ∉ ps := (List.nodup_cons.mp hlist.chain.nodup).1
    have hnode : NodeOf s.world idx p := hlist.own p (by simp)
    obtain ⟨item, hitem₀, _⟩ := hnode
    rw [hfetch]
    refine ⟨_, Function.update q idx ps, rfl, ?_⟩
    refine h.shrink .taken hidx ht ?_ ?_ hlists ?_ ⟨hidx, ?_, ?_⟩ (fun he => nomatch he) h.clears
    · rw [hq]
      simp
    · rw [hq]
      exact List.subset_cons_self p ps
    · -- The entry of the node taken, and those of the others, which keep their items.
      have hrest : ps.filterMap (entryAt w'.heap) = ps.filterMap (entryAt s.world.heap) :=
        filterMap_entryAt_congr fun p' hp' => itemAt_congr
          (ht.heap p' (by simpa using ne_of_mem_of_not_mem hp' hnot))
      rw [hq, hrest, entryAt_congr hitem, List.filterMap_cons]
      simp only [entryAt, hitem₀]
      rfl
    · exact (hlist.own p (by simp)).congr hitem
    · rw [Function.update_self]
      exact hnot

/-- Where it frees the node that it has sent. -/
theorem threadTx_release (h : TxInv s q) {idx : Nat} {p : Ptr} (hpc : s.pc = .release idx p) :
    TxInv { s with world := s.world.free p, pc := .fetch idx } q := by
  have hok := h.pc
  rw [hpc] at hok
  obtain ⟨hidx, hnode, hnot⟩ := hok
  have ht : Touched s.world (s.world.free p) idx [p] := by
    refine ⟨rfl, rfl, rfl, fun _ _ => rfl, fun p' hp' => ?_⟩
    exact Function.update_of_ne (by simpa using hp') _ _
  have hown : ∀ p' ∈ [p], NodeOf s.world idx p' := by
    intro p' hp'
    rw [List.mem_singleton.mp hp']
    exact hnode
  have hheap : ∀ p' ∈ q idx, (s.world.free p).heap p' = s.world.heap p' := fun p' hp' =>
    ht.heap p' (by simpa using ne_of_mem_of_not_mem hp' hnot)
  have hlists := h.lists.touched ht hown ((h.lists.lists idx hidx).congr rfl hheap)
  rw [Function.update_eq_self] at hlists
  refine ⟨hlists, h.unlocked, fun j hj => ?_, h.sorted, h.below, hidx, (fun he => nomatch he),
    h.clears⟩
  show s.sent j = (s.removed j).map Prod.fst ++ (q j).filterMap (entryAt (s.world.free p).heap)
  rw [h.split j hj]
  by_cases hji : j = idx
  · rw [hji, filterMap_entryAt_congr fun p' hp' => itemAt_congr (hheap p' hp')]
  · rw [h.lists.entries_eq ht hown hj hji]

/-- Where it tests whether it can sleep. -/
theorem threadTx_check (h : TxInv s q) (hpc : s.pc = .check) (ret : Int) (portClosed : Bool) :
    ∃ s' q', threadTxStep s ret portClosed = some s' ∧ TxInv s' q' := by
  have hfree := h.unlocked .txList
  simp only [threadTxStep, hpc, checkSection, lock_eq hfree, Option.bind_eq_bind, Option.bind_some]
  refine ⟨_, q, rfl, ?_⟩
  by_cases hempty : ((List.range MAX_EXTBOARD).all fun num =>
      (s.world.listTx num).header.isNone) = true
  · simp only [hempty, if_true]
    refine h.same rfl rfl rfl (update_lock_unlock hfree) trivial fun _ _ idx hidx => ?_
    -- `tx_alive` is cleared in the section that has found all lists empty.
    have hheader := List.all_eq_true.mp hempty idx (List.mem_range.mpr hidx)
    exact (h.lists.lists idx hidx).header_eq_none_iff.mp (Option.isNone_iff_eq_none.mp hheader)
  · simp only [hempty]
    refine h.same rfl rfl rfl (update_lock_unlock hfree) ?_ fun he => nomatch he
    show 0 < MAX_EXTBOARD
    decide

/-- `thread_tx` can always take its next step, and it keeps the invariant. -/
theorem threadTxStep_spec (h : TxInv s q) (ret : Int) (portClosed : Bool) :
    ∃ s' q', threadTxStep s ret portClosed = some s' ∧ TxInv s' q' := by
  have hok := h.pc
  cases hpc : s.pc with
  | fetch idx => exact threadTx_fetch h hpc ret portClosed
  | transmit idx p =>
    rw [hpc] at hok
    simp only [threadTxStep, hpc]
    split
    · exact ⟨_, q, rfl, h.same rfl rfl rfl rfl hok fun he => nomatch he⟩
    · split
      · exact ⟨_, q, rfl, h.same rfl rfl rfl rfl hok fun he => nomatch he⟩
      · exact ⟨_, q, rfl, h.same rfl rfl rfl rfl hok fun he => nomatch he⟩
  | clear idx p =>
    rw [hpc] at hok
    obtain ⟨w', hclear, hinv⟩ := h.clearList hok.1 (.mark idx p true) s.clears
      (fun hold => by rw [hpc] at hold; exact hold) (fun he => nomatch he) h.clears
    simp only [threadTxStep, hpc, hclear, Option.bind_eq_bind, Option.bind_some]
    exact ⟨_, _, rfl, hinv⟩
  | mark idx p failed =>
    rw [hpc] at hok
    obtain ⟨item, hitem, _⟩ := hok.2.1
    obtain ⟨n, hn, _⟩ := Option.map_eq_some_iff.mp hitem
    obtain ⟨w', hmark, hheap, hbrk, hlists, hheld⟩ :=
      markSection_eq (h.unlocked .listen) hn failed portClosed
    simp only [threadTxStep, hpc, hmark, Option.bind_eq_bind, Option.bind_some]
    refine ⟨_, q, rfl, h.same hheap hbrk hlists hheld ⟨hok.1, ?_, hok.2.2⟩ fun he => nomatch he⟩
    exact hok.2.1.congr (by rw [hheap])
  | release idx p =>
    simp only [threadTxStep, hpc]
    exact ⟨_, q, rfl, threadTx_release h hpc⟩
  | check => exact threadTx_check h hpc ret portClosed
  | idle =>
    have hfree := h.unlocked .txList
    simp only [threadTxStep, hpc, pollSection, lock_eq hfree, Option.bind_eq_bind,
      Option.bind_some]
    refine ⟨_, q, rfl, h.same rfl rfl rfl (update_lock_unlock hfree) ?_ fun _ halive => ?_⟩
    · split
      · show 0 < MAX_EXTBOARD
        decide
      · trivial
    · exact h.asleep hpc halive

/-- Appending a new node does not touch what `thread_tx` holds. -/
theorem PcOk.append {w w' : World} {pc : ThreadTxPc} (h : PcOk w q pc) {idx : Nat} {p : Ptr}
    (hp : ∀ i, ¬ NodeOf w i p) (hitems : ∀ p', p' ≠ p → itemAt w'.heap p' = itemAt w.heap p') :
    PcOk w' (Function.update q idx (q idx ++ [p])) pc := by
  refine h.keep fun i p' hnode hnot => ?_
  have hne : p' ≠ p := fun he => hp i (he ▸ hnode)
  refine ⟨hnode.congr (hitems p' hne), ?_⟩
  by_cases hii : i = idx
  · rw [hii, Function.update_self, List.mem_append, List.mem_singleton]
    exact fun hmem => hmem.elim (fun hm => hnot (hii ▸ hm)) hne
  · rw [Function.update_of_ne hii]
    exact hnot

/-- A call of `link_send` keeps the invariant. -/
theorem txInv_linkSend (h : TxInv s q) {s' : TxState} (mallocOk dataOk : Bool)
    (dst : Fin MAX_EXTBOARD) (buf : Option (List Byte))
    (hstep : txStep s (.linkSend mallocOk dataOk dst buf) = some s') : ∃ q', TxInv s' q' := by
  have hbrk : entryAt s.world.heap s.world.brk = none := by
    rw [entryAt, itemAt, h.lists.fresh _ (Nat.le_refl _)]
    rfl
  simp only [txStep] at hstep
  rcases linkSend_spec h.lists (h.unlocked .txList) mallocOk dataOk dst buf with
    ⟨ret, hsend⟩ | ⟨w', ret, item, hsend, hlists, hbrk', hheld, halive, hitem, hitems⟩
  · -- Nothing was appended, and nothing is recorded.
    rw [hsend] at hstep
    simp only [Option.bind_eq_bind, Option.bind_some, hbrk, Option.toList_none, List.append_nil,
      Function.update_eq_self] at hstep
    rw [← Option.some.inj hstep]
    exact ⟨q, h⟩
  · have hnew : ∀ i, ¬ NodeOf s.world i s.world.brk := fun i hnode =>
      Nat.lt_irrefl _ (h.lists.lt_brk hnode)
    have hentry : entryAt w'.heap s.world.brk = some (s.world.brk, item) := by
      rw [entryAt, hitem]
      rfl
    have hentries : ∀ j < MAX_EXTBOARD,
        (q j).filterMap (entryAt w'.heap) = (q j).filterMap (entryAt s.world.heap) := by
      intro j hj
      refine filterMap_entryAt_congr fun p hp => hitems p fun he => ?_
      exact hnew j (he ▸ (h.lists.lists j hj).own p hp)
    rw [hsend] at hstep
    simp only [Option.bind_eq_bind, Option.bind_some, hentry, Option.toList_some] at hstep
    rw [← Option.some.inj hstep]
    refine ⟨_, hlists, fun m => ?_, fun j hj => ?_, fun j hj => ?_, fun j hj x hx => ?_,
      h.pc.append hnew hitems, fun _ hfalse => ?_, h.clears⟩
    · show w'.held m = false
      rw [hheld, h.unlocked m]
    · show Function.update s.sent dst.val _ j = (s.removed j).map Prod.fst ++ _
      by_cases hji : j = dst.val
      · rw [hji, Function.update_self, Function.update_self, h.split _ dst.isLt,
          List.filterMap_append, hentries _ dst.isLt, List.append_assoc]
        simp only [List.filterMap_cons, hentry, List.filterMap_nil]
      · rw [Function.update_of_ne hji, Function.update_of_ne hji, h.split j hj, hentries j hj]
    -- The address of the new node is above all addresses before, which is what `once` rests on.
    · show (Function.update s.sent dst.val _ j).Pairwise _
      by_cases hji : j = dst.val
      · rw [hji, Function.update_self]
        refine List.pairwise_append.mpr ⟨h.sorted _ dst.isLt, List.pairwise_singleton _ _, ?_⟩
        intro a ha b hb
        rw [List.mem_singleton.mp hb]
        exact h.below _ dst.isLt a ha
      · rw [Function.update_of_ne hji]
        exact h.sorted j hj
    · have hx' : x ∈ Function.update s.sent dst.val
          (s.sent dst.val ++ [(s.world.brk, item)]) j := hx
      show x.1 < w'.brk
      rw [hbrk']
      by_cases hji : j = dst.val
      · rw [hji, Function.update_self, List.mem_append, List.mem_singleton] at hx'
        rcases hx' with hx' | rfl
        · exact Nat.lt_succ_of_lt (h.below _ dst.isLt x hx')
        · exact Nat.lt_succ_self _
      · rw [Function.update_of_ne hji] at hx'
        exact Nat.lt_succ_of_lt (h.below j hj x hx')
    -- `link_send` sets `tx_alive` in the section that appends, so this state is not asleep.
    · exact absurd (halive.symm.trans hfalse) (by decide)

/-- A step of `link_clear_all_list` keeps the invariant. -/
theorem txInv_clearNext (h : TxInv s q) {s' : TxState} (k : Nat)
    (hstep : txStep s (.clearNext k) = some s') : ∃ q', TxInv s' q' := by
  simp only [txStep] at hstep
  cases hk : s.clears[k]? with
  | none =>
    rw [hk] at hstep
    exact nomatch hstep
  | some i =>
    have hi : i < MAX_EXTBOARD := h.clears i (List.mem_of_getElem? hk)
    have hclears : ∀ j ∈ (if i + 1 < MAX_EXTBOARD then s.clears.set k (i + 1)
        else s.clears.eraseIdx k), j < MAX_EXTBOARD := by
      intro j hj
      split at hj
      · rcases List.mem_or_eq_of_mem_set hj with hj | rfl
        · exact h.clears j hj
        · assumption
      · exact h.clears j (List.mem_of_mem_eraseIdx hj)
    obtain ⟨w', hclear, hinv⟩ := h.clearList hi s.pc _ id id hclears
    rw [hk] at hstep
    simp only [Option.bind_eq_bind, Option.bind_some, hclear] at hstep
    rw [← Option.some.inj hstep]
    exact ⟨_, hinv⟩

/-- Every step keeps the invariant. -/
theorem txInv_step {s' : TxState} {e : TxEvent} (h : TxInv s q) (hstep : txStep s e = some s') :
    ∃ q', TxInv s' q' := by
  cases e with
  | threadTx ret portClosed =>
    obtain ⟨t, q', hnext, hinv⟩ := threadTxStep_spec h ret portClosed
    rw [← Option.some.inj (hnext.symm.trans hstep)]
    exact ⟨q', hinv⟩
  | linkSend mallocOk dataOk dst buf => exact txInv_linkSend h mallocOk dataOk dst buf hstep
  | linkClearAllList =>
    rw [← Option.some.inj hstep]
    refine ⟨q, { h with clears := fun i hi => ?_ }⟩
    rcases List.mem_append.mp hi with hi | hi
    · exact h.clears i hi
    · rw [List.mem_singleton.mp hi]
      decide
  | clearNext k => exact txInv_clearNext h k hstep

/-! ### `link_clear_all_list` in one go -/

/-- A step of the last running call clears its list and goes on to the next one, or ends the call. -/
theorem clearNext_step {before : List Nat} {i : Nat} {w : World} (hclears : s.clears = before ++ [i])
    (hclear : clearSection s.world i = some w) :
    ∃ s', txStep s (.clearNext before.length) = some s' ∧ s'.world = w ∧
      s'.clears = if i + 1 < MAX_EXTBOARD then before ++ [i + 1] else before := by
  have hat : s.clears[before.length]? = some i := by simp [hclears]
  refine ⟨_, by simp only [txStep, hat, hclear, Option.bind_eq_bind, Option.bind_some]; rfl, rfl, ?_⟩
  show (if i + 1 < MAX_EXTBOARD then s.clears.set before.length (i + 1)
    else s.clears.eraseIdx before.length) = _
  rw [hclears, List.set_append_right _ _ (Nat.le_refl _), Nat.sub_self, List.set_cons_zero,
    List.eraseIdx_append_of_length_le (Nat.le_refl _), Nat.sub_self, List.eraseIdx_cons_zero,
    List.append_nil]

/-- The steps of a call that has the lists from `i` on before it. -/
theorem clearNext_run (n : Nat) :
    ∀ (i : Nat) (s : TxState) (before : List Nat) (w : World), i + n + 1 = MAX_EXTBOARD →
      s.clears = before ++ [i] → (List.range' i (n + 1)).foldlM clearSection s.world = some w →
      ∃ s', txMachine.execFrom s (List.replicate (n + 1) (.clearNext before.length)) = some s' ∧
        s'.world = w ∧ s'.clears = before := by
  induction n with
  | zero =>
    intro i s before w hi hclears hw
    obtain ⟨w₁, hclear, hrest⟩ := Option.bind_eq_some_iff.mp hw
    obtain ⟨s', hstep, hworld, hend⟩ := clearNext_step hclears hclear
    rw [if_neg (by omega)] at hend
    refine ⟨s', ?_, hworld.trans (Option.some.inj hrest), hend⟩
    show (txStep s (.clearNext before.length)).bind some = _
    rw [hstep]
    rfl
  | succ n ih =>
    intro i s before w hi hclears hw
    obtain ⟨w₁, hclear, hrest⟩ := Option.bind_eq_some_iff.mp hw
    obtain ⟨s₁, hstep, hworld, hnext⟩ := clearNext_step hclears hclear
    rw [if_pos (by omega)] at hnext
    rw [← hworld] at hrest
    obtain ⟨s', hrun, hend⟩ := ih (i + 1) s₁ before w (by omega) hnext hrest
    refine ⟨s', ?_, hend⟩
    rw [List.replicate_succ, Machine.execFrom_cons]
    show (txStep s (.clearNext before.length)).bind _ = _
    rw [hstep]
    exact hrun

/-- A call of `link_clear_all_list` whose steps come one after the other leaves the lists as the
function does. -/
theorem linkClearAllList_run {w : World} (h : linkClearAllList s.world = some w) :
    ∃ s', txMachine.execFrom s (.linkClearAllList
        :: List.replicate MAX_EXTBOARD (.clearNext s.clears.length)) = some s' ∧
      s'.world = w ∧ s'.clears = s.clears := by
  rw [linkClearAllList, List.range_eq_range'] at h
  exact clearNext_run 9 0 { s with clears := s.clears ++ [0] } s.clears w rfl rfl h

/-- The invariant gives what is to be shown. -/
theorem TxInv.txOk (h : TxInv s q) : TxOk s := by
  refine ⟨fun hpc halive idx hidx => ?_, fun idx hidx => ?_, fun idx hidx => ?_,
    fun idx hidx x hx => ?_, fun ret portClosed => ?_⟩
  · exact (h.lists.lists idx hidx).header_eq_none_iff.mpr (h.asleep hpc halive idx hidx)
  · rw [h.lists.txQueue_eq hidx, h.split idx hidx]
    exact (gone_sublist s .taken idx).append (List.Sublist.refl _)
  · refine (h.sorted idx hidx).imp ?_
    intro a b hlt he
    rw [he] at hlt
    exact Nat.lt_irrefl _ hlt
  · rw [h.split idx hidx, ← h.lists.txQueue_eq hidx] at hx
    rcases List.mem_append.mp hx with hx | hx
    · exact (mem_gone hx).elim Or.inl fun hc => Or.inr (Or.inl hc)
    · exact Or.inr (Or.inr hx)
  · obtain ⟨s', q', hnext, _⟩ := threadTxStep_spec h ret portClosed
    rw [hnext]
    rfl

/-- The invariant holds in every state that any interleaving reaches. -/
theorem exists_txInv {es : List TxEvent} (h : txMachine.exec es = some s) : ∃ q, TxInv s q := by
  refine (Machine.Run.of_exec h).invariant (I := fun s => ∃ q, TxInv s q) ⟨_, txInv_init⟩ ?_
  rintro s e s' _ ⟨q, hq⟩ hstep
  exact txInv_step hq hstep

/-- In every state that any interleaving reaches, a sleeping `thread_tx` has empty lists, and
the items of each destination are taken in `link_send` order, each at most once, and none is
lost except in `clear_tx_list`. -/
theorem threadTx_order (es : List TxEvent) (s : TxState) (h : txMachine.exec es = some s) :
    TxOk s := by
  obtain ⟨q, hq⟩ := exists_txInv h
  exact hq.txOk

/-- A run in which `thread_tx` and a `link_clear_all_list` call share the items of five
`link_send` calls. -/
def sharedRun : List TxEvent :=
  let send (dst : Fin MAX_EXTBOARD) (x : Byte) := TxEvent.linkSend true true dst (some [x])
  let dev0 : Fin MAX_EXTBOARD := ⟨0, by decide⟩
  let dev1 : Fin MAX_EXTBOARD := ⟨1, by decide⟩
  [send dev0 1, send dev0 2, .threadTx 0 false, send dev1 3, .linkClearAllList, send dev0 4,
    .clearNext 0, send dev0 5, .clearNext 0] ++ List.replicate 18 (.threadTx (-2) false)

/-- At its end two items for device 0 have been taken, two cleared, and `thread_tx` sleeps. -/
theorem threadTx_order_asleep :
    ∃ s, txMachine.exec sharedRun = some s ∧ s.pc = .idle ∧
      (s.gone .taken 0).map (fun x => x.2.data) = [[1], [5]] ∧
      (s.gone .cleared 0).map (fun x => x.2.data) = [[2], [4]] ∧ TxOk s := by
  have heval : (txMachine.exec sharedRun).map
        (fun s => (s.pc, (s.gone .taken 0).map (fun x => x.2.data),
          (s.gone .cleared 0).map (fun x => x.2.data)))
      = some (.idle, [[1], [5]], [[2], [4]]) := by
    decide
  obtain ⟨s, hs, hend⟩ := Option.map_eq_some_iff.mp heval
  simp only [Prod.mk.injEq] at hend
  exact ⟨s, hs, hend.1, hend.2.1, hend.2.2, threadTx_order _ s hs⟩

end LearnGit.Proofs.Uart
