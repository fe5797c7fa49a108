import LearnGit.Lib.Chain
import LearnGit.Uart.Link.World

/-!
# `LearnGit.Proofs.Uart.DataList`: the list functions on a well-formed list

What `append_to_list_tail`, `fetch_from_list_header` and the search and the pointer surgery of
`link_recv` do to a list that is well formed before the call, in the vocabulary of
`LearnGit.Lib.Chain`. `nextOf` and `preOf` read the pointers of the heap for that library.

`recvUnlink` is right in three of its four branches. When the node it takes out is the last
one and not the first one, `list_rx.tail` keeps pointing to it: `recvUnlink_dlist` carries
the side condition, and the run results in `ReceiveList.lean` say what follows from it.
-/

set_option autoImplicit false

namespace LearnGit.Proofs.Uart

open LearnGit.Lib
open LearnGit.Uart.Link

/-- The forward pointer at an address. -/
def nextOf (heap : Ptr → Option ProDataInfo) (p : Ptr) : Option (Option Ptr) :=
  (heap p).map (·.next)

/-- The backward pointer at an address. -/
def preOf (heap : Ptr → Option ProDataInfo) (p : Ptr) : Option (Option Ptr) :=
  (heap p).map (·.pre)

/-- Walking a segment in enough rounds gives its nodes. -/
theorem walk_of_seg {heap : Ptr → Option ProDataInfo} {h : Option Ptr} {ps : List Ptr}
    (hs : Seg (nextOf heap) h ps none) :
    ∀ rounds, ps.length ≤ rounds → walk heap rounds h = ps := by
  induction ps generalizing h with
  | nil =>
    intro rounds _
    obtain rfl : h = none := hs
    cases rounds <;> rfl
  | cons p ps ih =>
    intro rounds hr
    obtain ⟨rfl, q, hq, hrest⟩ := hs
    obtain ⟨rounds, rfl⟩ : ∃ r, rounds = r + 1 := ⟨rounds - 1, by simp at hr; omega⟩
    obtain ⟨n, hn, rfl⟩ : ∃ n, heap p = some n ∧ n.next = q := by
      simpa [nextOf, Option.map_eq_some_iff] using hq
    simp only [walk, hn]
    rw [ih hrest rounds (by simpa using hr)]

/-- Every address on a list has a node. -/
theorem seg_node {heap : Ptr → Option ProDataInfo} {h t : Option Ptr} {ps : List Ptr}
    (hs : Seg (nextOf heap) h ps t) {p : Ptr} (hp : p ∈ ps) : ∃ n, heap p = some n := by
  have := hs.succ_isSome p hp
  simpa [nextOf, Option.isSome_iff_exists] using this

/-- A list through nodes below `brk` has at most `brk` nodes. -/
theorem seg_length_le {heap : Ptr → Option ProDataInfo} {h : Option Ptr} {ps : List Ptr} {brk : Nat}
    (hs : Seg (nextOf heap) h ps none) (hfresh : ∀ p, brk ≤ p → heap p = none) :
    ps.length ≤ brk := by
  have hbound : ∀ p ∈ ps, p < brk := by
    intro p hp
    by_contra hge
    obtain ⟨n, hn⟩ := seg_node hs hp
    rw [hfresh p (Nat.not_lt.mp hge)] at hn
    exact nomatch hn
  have hsub : ps ⊆ List.range brk := fun p hp => List.mem_range.mpr (hbound p hp)
  -- No node twice, and all of them below `brk`.
  have hle := (List.subperm_of_subset hs.nodup hsub).length_le
  simpa using hle

/-- Taking and releasing a mutex that was free leaves the mutexes as they were. -/
theorem update_lock_unlock {held : Mutex → Bool} {m : Mutex} (h : held m = false) :
    Function.update (Function.update held m true) m false = held := by
  rw [Function.update_idem, ← h, Function.update_eq_self]

/-- A mutex that is free is taken. -/
theorem lock_eq {w : World} {m : Mutex} (h : w.held m = false) :
    w.lock m = some { w with held := Function.update w.held m true } := by
  simp [World.lock, h]

/-! ### Appending -/

/-- The heap after the stores of `append_to_list_tail`. -/
def appendHeap (heap : Ptr → Option ProDataInfo) (tail : Option Ptr) (p : Ptr) :
    Ptr → Option ProDataInfo := fun q =>
  if q = p then (heap p).map fun n => { n with pre := tail, next := none }
  else if tail = some q then (heap q).map fun n => { n with next := some p }
  else heap q

/-- A node that is allocated is changed. -/
theorem modifyNode_eq {w : World} {p : Ptr} {n : ProDataInfo} (hp : w.heap p = some n)
    (f : ProDataInfo → ProDataInfo) :
    w.modifyNode p f = some (w.setNode p (f n)) := by
  simp [World.modifyNode, hp]

/-- A node that is set is in the heap. -/
@[simp] theorem setNode_heap (w : World) (p : Ptr) (n : ProDataInfo) :
    (w.setNode p n).heap = Function.update w.heap p (some n) := rfl

/-- Setting a node leaves the receive list's header and tail. -/
@[simp] theorem setNode_listRx (w : World) (p : Ptr) (n : ProDataInfo) :
    (w.setNode p n).listRx = w.listRx := rfl

/-- A new header and tail leave the heap. -/
@[simp] theorem setList_heap (w : World) (plist : ListRef) (l : ListDataInfo) :
    (w.setList plist l).heap = w.heap := by
  cases plist <;> rfl

/-- The receive list's header and tail are read back. -/
@[simp] theorem setList_rx_listRx (w : World) (l : ListDataInfo) :
    (w.setList .rx l).listRx = l := rfl

/-- `append_to_list_tail` on a list whose `tail` is its last node. -/
theorem appendToListTail_eq {w : World} (plist : ListRef) {ps : List Ptr} {p : Ptr}
    (hs : Seg (nextOf w.heap) (w.list plist).header ps none)
    (hlast : (w.list plist).tail = ps.getLast?) (hp : (w.heap p).isSome) (hnot : p ∉ ps) :
    appendToListTail w plist p =
      some (({ w with heap := appendHeap w.heap (w.list plist).tail p }).setList plist
        ⟨(w.list plist).header.or (some p), some p⟩) := by
  obtain ⟨n, hn⟩ := Option.isSome_iff_exists.mp hp
  unfold appendToListTail
  cases ps using List.reverseRecOn with
  | nil =>
    have hh : (w.list plist).header = none := hs
    simp only [hh, hlast]
    rw [modifyNode_eq (n := n) (by simpa using hn)]
    have hheap : Function.update w.heap p (some { n with next := none, pre := none })
        = appendHeap w.heap none p := by
      funext q
      by_cases hq : q = p
      · subst hq
        simp [appendHeap, hn]
      · simp [appendHeap, hq]
    cases plist <;> simp [World.setList, World.setNode, hheap]
  | append_singleton as a =>
    have hhead : (w.list plist).header = (as ++ [a]).head? := by simpa using hs.head_eq
    obtain ⟨h0, hh⟩ : ∃ h0, (w.list plist).header = some h0 := by
      rw [hhead]
      cases as <;> simp
    have ha : (w.list plist).tail = some a := by simpa using hlast
    obtain ⟨na, hna⟩ := seg_node hs (p := a) (by simp)
    have hpa : p ≠ a := fun h => hnot (by simp [h])
    simp only [hh, ha, Option.bind_eq_bind, Option.bind_some]
    rw [modifyNode_eq hna]
    simp only [Option.bind_some]
    rw [modifyNode_eq (n := n) (by simp [hpa, hn])]
    have hheap : Function.update (Function.update w.heap a (some { na with next := some p })) p
        (some { n with pre := some a, next := none }) = appendHeap w.heap (some a) p := by
      funext q
      by_cases hq : q = p
      · subst hq
        simp [appendHeap, hn]
      · by_cases hqa : q = a
        · subst hqa
          simp [appendHeap, hq, hna]
        · simp [appendHeap, hq, hqa, Ne.symm hqa]
    cases plist <;> simp [World.setList, World.setNode, hheap]

/-- Appending changes no item. -/
@[simp] theorem itemAt_appendHeap (heap : Ptr → Option ProDataInfo) (tail : Option Ptr)
    (p q : Ptr) : itemAt (appendHeap heap tail p) q = itemAt heap q := by
  unfold itemAt appendHeap
  split
  · rename_i h
    subst h
    cases heap q <;> simp [itemOf]
  · split
    · cases heap q <;> simp [itemOf]
    · rfl

/-- Behind an append the other nodes, the last one apart, have the same next node. -/
theorem nextOf_appendHeap {heap : Ptr → Option ProDataInfo} {tail : Option Ptr} {p q : Ptr}
    (hq : q ≠ p) (ht : tail ≠ some q) : nextOf (appendHeap heap tail p) q = nextOf heap q := by
  simp [nextOf, appendHeap, hq, ht]

/-- Behind an append the other nodes have the same node before them. -/
theorem preOf_appendHeap {heap : Ptr → Option ProDataInfo} {tail : Option Ptr} {p q : Ptr}
    (hq : q ≠ p) : preOf (appendHeap heap tail p) q = preOf heap q := by
  unfold preOf appendHeap
  rw [if_neg hq]
  split
  · cases heap q <;> rfl
  · rfl

/-- The forward pointer of the old last node after an append. -/
theorem nextOf_appendHeap_tail {heap : Ptr → Option ProDataInfo} {t p : Ptr}
    (htp : t ≠ p) (ht : (heap t).isSome) :
    nextOf (appendHeap heap (some t) p) t = some (some p) := by
  obtain ⟨n, hn⟩ := Option.isSome_iff_exists.mp ht
  simp [nextOf, appendHeap, htp, hn]

/-- An appended node is the last one. -/
theorem nextOf_appendHeap_self {heap : Ptr → Option ProDataInfo} {tail : Option Ptr} {p : Ptr}
    (hp : (heap p).isSome) : nextOf (appendHeap heap tail p) p = some none := by
  obtain ⟨n, hn⟩ := Option.isSome_iff_exists.mp hp
  simp [nextOf, appendHeap, hn]

/-- The node before an appended one is the old tail. -/
theorem preOf_appendHeap_self {heap : Ptr → Option ProDataInfo} {tail : Option Ptr} {p : Ptr}
    (hp : (heap p).isSome) : preOf (appendHeap heap tail p) p = some tail := by
  obtain ⟨n, hn⟩ := Option.isSome_iff_exists.mp hp
  simp [preOf, appendHeap, hn]

/-- The list after an append. -/
theorem appendHeap_dlist {heap : Ptr → Option ProDataInfo} {header tail : Option Ptr}
    {ps : List Ptr} {p : Ptr} (h : DList (nextOf heap) (preOf heap) header tail ps)
    (hp : (heap p).isSome) (hnot : p ∉ ps) :
    DList (nextOf (appendHeap heap tail p)) (preOf (appendHeap heap tail p))
      (header.or (some p)) (some p) (ps ++ [p]) := by
  refine h.snoc (fun q hq ht => ?_) (fun t ht => ?_) (nextOf_appendHeap_self hp)
    (fun q hq => ?_) (preOf_appendHeap_self hp)
  · exact nextOf_appendHeap (fun he => hnot (he ▸ hq)) ht
  · have htps : t ∈ ps := List.mem_of_getLast? (h.last ▸ ht)
    obtain ⟨n, hn⟩ := seg_node h.chain htps
    rw [ht]
    exact nextOf_appendHeap_tail (fun he => hnot (he ▸ htps)) (by rw [hn]; rfl)
  · exact preOf_appendHeap fun he => hnot (he ▸ hq)

/-! ### Searching -/

/-- The search of `link_recv` over a list: the first node of the device, or none. -/
theorem recvFind_of_seg {heap : Ptr → Option ProDataInfo} {h : Option Ptr} {ps : List Ptr}
    (devId : Nat) (hs : Seg (nextOf heap) h ps none) :
    ∀ rounds, ps.length < rounds →
      recvFind heap devId rounds h
        = some (ps.find? fun p => (heap p).any fun n => n.devId == devId) := by
  induction ps generalizing h with
  | nil =>
    intro rounds hr
    obtain rfl : h = none := hs
    obtain ⟨rounds, rfl⟩ : ∃ r, rounds = r + 1 := ⟨rounds - 1, by simp at hr; omega⟩
    rfl
  | cons p ps ih =>
    intro rounds hr
    obtain ⟨rfl, q, hq, hrest⟩ := hs
    obtain ⟨rounds, rfl⟩ : ∃ r, rounds = r + 1 := ⟨rounds - 1, by simp at hr; omega⟩
    obtain ⟨n, hn, rfl⟩ : ∃ n, heap p = some n ∧ n.next = q := by
      simpa [nextOf, Option.map_eq_some_iff] using hq
    simp only [recvFind, hn, Option.bind_eq_bind, Option.bind_some]
    by_cases hdev : n.devId = devId
    · simp [hdev, hn]
    · rw [if_neg hdev, ih hrest rounds (by simpa using hr)]
      simp [hn, hdev]

/-! ### Taking a node out -/

/-- Changing a node leaves the next pointers of the others. -/
theorem nextOf_update_of_ne {heap : Ptr → Option ProDataInfo} {a q : Ptr}
    {n : Option ProDataInfo} (h : q ≠ a) :
    nextOf (Function.update heap a n) q = nextOf heap q := by
  simp [nextOf, h]

/-- Changing a node leaves the previous pointers of the others. -/
theorem preOf_update_of_ne {heap : Ptr → Option ProDataInfo} {a q : Ptr}
    {n : Option ProDataInfo} (h : q ≠ a) :
    preOf (Function.update heap a n) q = preOf heap q := by
  simp [preOf, h]

/-- A store that keeps the backward pointer. -/
theorem preOf_update_next {heap : Ptr → Option ProDataInfo} {a q : Ptr} {n : ProDataInfo}
    (hn : heap a = some n) (next : Option Ptr) :
    preOf (Function.update heap a (some { n with next := next })) q = preOf heap q := by
  by_cases h : q = a
  · subst h
    simp [preOf, hn]
  · simp [preOf, h]

/-- A store that keeps the forward pointer. -/
theorem nextOf_update_pre {heap : Ptr → Option ProDataInfo} {a q : Ptr} {n : ProDataInfo}
    (hn : heap a = some n) (pre : Option Ptr) :
    nextOf (Function.update heap a (some { n with pre := pre })) q = nextOf heap q := by
  by_cases h : q = a
  · subst h
    simp [nextOf, hn]
  · simp [nextOf, h]

/-- A change of the pointers of a node alone leaves every item. -/
theorem itemAt_update {heap : Ptr → Option ProDataInfo} {a q : Ptr} {n m : ProDataInfo}
    (hn : heap a = some n) (hm : itemOf m = itemOf n) :
    itemAt (Function.update heap a (some m)) q = itemAt heap q := by
  by_cases h : q = a
  · subst h
    simp [itemAt, hn, hm]
  · simp [itemAt, h]

section Unlink

variable {heap : Ptr → Option ProDataInfo} {header tail : Option Ptr} {as bs : List Ptr} {p : Ptr}

/-- What the heap holds at a node of the list. -/
theorem node_links (h : DList (nextOf heap) (preOf heap) header tail (as ++ p :: bs)) :
    ∃ n, heap p = some n ∧ n.pre = as.getLast? ∧ n.next = bs.head? := by
  obtain ⟨n, hn⟩ := seg_node h.chain (p := p) (by simp)
  refine ⟨n, hn, ?_, ?_⟩
  · have hpre := (back_append.mp h.back).2.1
    simpa [preOf, hn] using hpre
  · obtain ⟨m, _, hrear⟩ := seg_append.mp h.chain
    obtain ⟨_, r, hr, hbs⟩ := hrear
    have hhead : r = bs.head? := by simpa using hbs.head_eq
    simpa [nextOf, hn, hhead] using hr

/-- Taking out a node that is not the first leaves the header. -/
theorem head?_erase {a : Ptr} (h : DList (nextOf heap) (preOf heap) header tail
    (as ++ [a] ++ p :: bs)) : (as ++ [a] ++ bs).head? = header := by
  rw [h.head_eq]
  cases as <;> simp

/-- The first node: the node behind it becomes the header. -/
theorem dlist_erase_first {b : Ptr} {nb : ProDataInfo} (hnb : heap b = some nb)
    (h : DList (nextOf heap) (preOf heap) header tail ([] ++ p :: b :: bs)) :
    DList (nextOf (Function.update heap b (some { nb with pre := none })))
      (preOf (Function.update heap b (some { nb with pre := none }))) (some b)
      (b :: bs).getLast? (b :: bs) := by
  have herase := h.erase
    (nextOf (Function.update heap b (some { nb with pre := none })))
    (preOf (Function.update heap b (some { nb with pre := none })))
    (fun q _ _ => nextOf_update_pre hnb none) (by simp)
    (fun q _ hq => preOf_update_of_ne fun he => hq (by simp [he]))
    (fun b' hb' => by
      obtain rfl : b = b' := by simpa using hb'
      simp [preOf])
  simpa using herase

/-- The last node: only the forward pointer of the node before it changes. -/
theorem dlist_erase_last {a : Ptr} {na : ProDataInfo} (hna : heap a = some na)
    (h : DList (nextOf heap) (preOf heap) header tail (as ++ [a] ++ [p])) :
    DList (nextOf (Function.update heap a (some { na with next := none })))
      (preOf (Function.update heap a (some { na with next := none }))) header
      (as ++ [a] ++ []).getLast? (as ++ [a] ++ []) := by
  have herase := h.erase (nextOf (Function.update heap a (some { na with next := none })))
    (preOf (Function.update heap a (some { na with next := none })))
    (fun q _ hq => nextOf_update_of_ne fun he => hq (by simp [he]))
    (fun a' ha' => by
      obtain rfl : a = a' := by simpa using ha'
      simp [nextOf])
    (fun q _ _ => preOf_update_next hna none) (by simp)
  rw [head?_erase h] at herase
  exact herase

/-- A node in the middle: both neighbours change. -/
theorem dlist_erase_middle {a b : Ptr} {na nb : ProDataInfo} (hna : heap a = some na)
    (hnb : Function.update heap a (some { na with next := some b }) b = some nb)
    (h : DList (nextOf heap) (preOf heap) header tail (as ++ [a] ++ p :: b :: bs)) :
    DList
      (nextOf (Function.update (Function.update heap a (some { na with next := some b })) b
        (some { nb with pre := some a })))
      (preOf (Function.update (Function.update heap a (some { na with next := some b })) b
        (some { nb with pre := some a })))
      header (as ++ [a] ++ b :: bs).getLast? (as ++ [a] ++ b :: bs) := by
  have herase := h.erase
    (nextOf (Function.update (Function.update heap a (some { na with next := some b })) b
      (some { nb with pre := some a })))
    (preOf (Function.update (Function.update heap a (some { na with next := some b })) b
      (some { nb with pre := some a })))
    (fun q _ hq => (nextOf_update_pre hnb (some a)).trans
      (nextOf_update_of_ne fun he => hq (by simp [he])))
    (fun a' ha' => by
      obtain rfl : a = a' := by simpa using ha'
      rw [nextOf_update_pre hnb (some a)]
      simp [nextOf])
    (fun q _ hq => (preOf_update_of_ne fun he => hq (by simp [he])).trans
      (preOf_update_next hna (some b)))
    (fun b' hb' => by
      obtain rfl : b = b' := by simpa using hb'
      simp [preOf])
  rw [head?_erase h] at herase
  exact herase

/-- `recvUnlink` on a well-formed list: the node is out, and the list is well formed again
unless the node was the last one and not the first one. -/
theorem recvUnlink_dlist {w : World}
    (h : DList (nextOf w.heap) (preOf w.heap) w.listRx.header w.listRx.tail (as ++ p :: bs)) :
    ∃ w', recvUnlink w p = some w' ∧ w' = { w with heap := w'.heap, listRx := w'.listRx } ∧
      (∀ q, itemAt w'.heap q = itemAt w.heap q) ∧
      w'.listRx.tail = (if as ++ bs = [] then none else w.listRx.tail) ∧
      DList (nextOf w'.heap) (preOf w'.heap) w'.listRx.header (as ++ bs).getLast? (as ++ bs) := by
  obtain ⟨n, hn, hpre, hnext⟩ := node_links h
  unfold recvUnlink
  simp only [hn, Option.bind_eq_bind, Option.bind_some, hpre, hnext]
  cases as using List.reverseRecOn with
  | nil =>
    cases bs with
    | nil =>
      -- The only node.
      refine ⟨_, rfl, rfl, fun q => rfl, by simp, rfl, trivial, rfl⟩
    | cons b bs =>
      obtain ⟨nb, hnb⟩ := seg_node h.chain (p := b) (by simp)
      simp only [List.getLast?_nil, List.head?_cons]
      rw [modifyNode_eq (n := nb) (by simpa using hnb)]
      exact ⟨_, rfl, rfl, fun q => itemAt_update hnb rfl, by simp, dlist_erase_first hnb h⟩
  | append_singleton as a =>
    obtain ⟨na, hna⟩ := seg_node h.chain (p := a) (by simp)
    have hlast : (as ++ [a]).getLast? = some a := by simp
    simp only [hlast]
    cases bs with
    | nil =>
      simp only [List.head?_nil]
      rw [modifyNode_eq hna]
      exact ⟨_, rfl, rfl, fun q => itemAt_update hna rfl, by simp, dlist_erase_last hna h⟩
    | cons b bs =>
      obtain ⟨nb, hnb⟩ := seg_node h.chain (p := b) (by simp)
      -- The two neighbours are two nodes.
      have hab : b ≠ a := by
        rintro rfl
        exact List.disjoint_of_nodup_append h.chain.nodup (a := b) (by simp) (by simp)
      simp only [List.head?_cons]
      rw [modifyNode_eq hna]
      simp only [Option.bind_some]
      rw [modifyNode_eq (n := nb) (by simp [hab, hnb])]
      have hnb' : (Function.update w.heap a (some { na with next := some b })) b = some nb := by
        simp [hab, hnb]
      refine ⟨_, rfl, rfl, fun q => ?_, by simp, dlist_erase_middle hna hnb' h⟩
      exact (itemAt_update (m := { nb with pre := some a }) hnb' rfl).trans
        (itemAt_update (m := { na with next := some b }) hna rfl)

end Unlink

end LearnGit.Proofs.Uart
