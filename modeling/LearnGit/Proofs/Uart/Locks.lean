import LearnGit.Proofs.Uart.ReceiveList
import LearnGit.Uart.Link.Receive

/-!
# `LearnGit.Proofs.Uart.Locks`: which calls release what they lock

`linkCall_balanced_iff`: a call of `link_send`, `link_recv`, `link_listen` or
`deal_with_eof_packet` that returns holds exactly the mutexes it held on entry, except for one
return path. `link_recv` for a device without an item, on a list that is not empty, leaves the
loop and returns -1 without `pthread_mutex_unlock(&mutex_rx_list)`. The next caller that needs
this mutex waits for ever.

The memory, the arguments and the mutexes held on entry are arbitrary. A call on a mutex that
its own thread holds does not return, so it is not a counterexample.
-/

set_option autoImplicit false

namespace LearnGit.Proofs.Uart

open LearnGit.Uart.Link

/-- A call with its arguments, the outcomes of its allocations and, for `link_listen`, what it
finds at each lock of `mutex_listen`. -/
inductive LinkCall where
  | send (mallocOk dataOk : Bool) (dst : Int) (buf : Option (List Byte))
  | recv (devId : Nat)
  | listen (sets : DevSets) (v : ListenView) (vs : List ListenView)
  | eof (ppkt : ProPacketInfo)

/-- The state after the call, when it returns. -/
def LinkCall.run (w : World) : LinkCall → Option World
  | .send mallocOk dataOk dst buf => (linkSend w mallocOk dataOk dst buf).map (·.1)
  | .recv devId => (linkRecv w devId).map (·.1)
  | .listen sets v vs => (linkListen w sets v vs).map (·.1)
  | .eof ppkt => (dealWithEofPacket w ppkt).map (·.1)

/-- A `link_recv` on a list that is not empty and holds no item of the device. -/
def Misses (w : World) : LinkCall → Prop
  | .recv devId => w.listRx.header ≠ none ∧
      ∀ p ∈ walk w.heap (w.brk + 1) w.listRx.header, ofDev w.heap devId p = false
  | _ => False

/-! ### What the steps do to the mutexes -/

/-- A lock that is granted. -/
theorem held_of_lock {w w' : World} {m : Mutex} (h : w.lock m = some w') :
    w.held m = false ∧ w'.held = Function.update w.held m true := by
  unfold World.lock at h
  split at h
  · exact nomatch h
  · rename_i hfree
    rw [← Option.some.inj h]
    exact ⟨by simpa using hfree, rfl⟩

/-- A store leaves the mutexes alone. -/
theorem held_of_modifyNode {w w' : World} {p : Ptr} {f : ProDataInfo → ProDataInfo}
    (h : w.modifyNode p f = some w') : w'.held = w.held := by
  unfold World.modifyNode at h
  split at h
  · exact nomatch h
  · rw [← Option.some.inj h]
    rfl

/-- A new header and tail leave the locks. -/
@[simp] theorem held_setList (w : World) (plist : ListRef) (l : ListDataInfo) :
    (w.setList plist l).held = w.held := by
  cases plist <;> rfl

/-- An append leaves the locks. -/
theorem held_of_appendToListTail {w w' : World} {plist : ListRef} {p : Ptr}
    (h : appendToListTail w plist p = some w') : w'.held = w.held := by
  unfold appendToListTail at h
  dsimp only at h
  split at h
  · rw [held_of_modifyNode h, held_setList]
  · simp only [Option.bind_eq_bind, Option.bind_eq_some_iff] at h
    obtain ⟨t, _, w₁, h₁, w₂, h₂, h₃⟩ := h
    rw [← Option.some.inj h₃, held_setList, held_of_modifyNode h₂, held_of_modifyNode h₁]

/-- Taking a node out leaves the locks. -/
theorem held_of_recvUnlink {w w' : World} {p : Ptr} (h : recvUnlink w p = some w') :
    w'.held = w.held := by
  unfold recvUnlink at h
  rw [Option.bind_eq_bind, Option.bind_eq_some_iff] at h
  obtain ⟨n, _, h⟩ := h
  split at h
  · split at h
    · simp only [Option.bind_eq_bind, Option.bind_eq_some_iff] at h
      obtain ⟨w₁, h₁, h₂⟩ := h
      rw [held_of_modifyNode h₂, held_of_modifyNode h₁]
    · exact held_of_modifyNode h
  · split at h
    · rw [held_of_modifyNode h, held_setList]
    · rw [← Option.some.inj h, held_setList]

/-- An answer is written under `mutex_tx_buf`, which is released. -/
theorem held_of_sendAnswerPacket {w w' : World} {devId : Fin 8} {num : Fin 4} {cmd : ProtocolCmd}
    (h : sendAnswerPacket w devId num cmd = some w') : w'.held = w.held := by
  unfold sendAnswerPacket writePacket at h
  rw [Option.bind_eq_bind, Option.bind_eq_some_iff] at h
  obtain ⟨w₁, h₁, h₂⟩ := h
  obtain ⟨hfree, hheld⟩ := held_of_lock h₁
  rw [← Option.some.inj h₂]
  show Function.update w₁.held .txBuf false = _
  rw [hheld, update_lock_unlock hfree]

/-- The search visits the nodes of the list and finds none exactly when none is of the
device. -/
theorem recvFind_eq_none_iff {heap : Ptr → Option ProDataInfo} {devId : Nat} {rounds : Nat}
    {h : Option Ptr} {r : Option Ptr} (hfind : recvFind heap devId rounds h = some r) :
    r = none ↔ ∀ p ∈ walk heap rounds h, ofDev heap devId p = false := by
  induction rounds generalizing h with
  | zero =>
    rw [recvFind] at hfind
    cases hfind
  | succ rounds ih =>
    cases h with
    | none =>
      rw [← Option.some.inj hfind]
      exact iff_of_true rfl fun p hp => absurd hp List.not_mem_nil
    | some q =>
      rw [recvFind, Option.bind_eq_bind, Option.bind_eq_some_iff] at hfind
      obtain ⟨n, hn, hfind⟩ := hfind
      have hdev : ofDev heap devId q = (n.devId == devId) := by rw [ofDev, hn]; rfl
      -- `recvFind` and `walk` go through the same nodes in step.
      simp only [walk, hn, List.forall_mem_cons, hdev]
      split at hfind
      · rename_i heq
        rw [← Option.some.inj hfind]
        exact iff_of_false (Option.some_ne_none _) (by simp [heq])
      · rename_i hne
        rw [ih hfind]
        simp [hne]

/-! ### The four calls -/

/-- A `link_send` that returns has given back its locks, whatever the memory did. -/
theorem linkSend_balanced {w w' : World} {mallocOk dataOk : Bool} {dst : Int}
    {buf : Option (List Byte)} {ret : Int}
    (h : linkSend w mallocOk dataOk dst buf = some (w', ret)) : w'.held = w.held := by
  unfold linkSend at h
  split at h
  · rw [← (Prod.mk.inj (Option.some.inj h)).1]
  · -- The early returns hold nothing. The last path locks and unlocks `mutex_tx_list`.
    split at h
    · rw [← (Prod.mk.inj (Option.some.inj h)).1]
    split at h
    · rw [← (Prod.mk.inj (Option.some.inj h)).1]
    split at h
    · rw [← (Prod.mk.inj (Option.some.inj h)).1]
    simp only [Option.bind_eq_bind, Option.bind_eq_some_iff] at h
    obtain ⟨w₁, h₁, h⟩ := h
    obtain ⟨hfree, hheld⟩ := held_of_lock h₁
    split at h
    · rw [Option.bind_eq_some_iff] at h
      obtain ⟨w₂, h₂, h₃⟩ := h
      rw [← (Prod.mk.inj (Option.some.inj h₃)).1]
      have halive : (if w₂.txAlive then w₂ else { w₂ with txAlive := true }).held = w₂.held := by
        split <;> rfl
      show Function.update (if w₂.txAlive then w₂ else { w₂ with txAlive := true }).held .txList
        false = _
      rw [halive, held_of_appendToListTail h₂, hheld, update_lock_unlock hfree]
      rfl
    · exact nomatch h

/-- The handler of an end gives back its locks. -/
theorem dealWithEofPacket_balanced {w w' : World} {ppkt : ProPacketInfo} {ret : Int}
    (h : dealWithEofPacket w ppkt = some (w', ret)) : w'.held = w.held := by
  unfold dealWithEofPacket at h
  split at h
  · exact nomatch h
  · split at h
    · rw [Option.bind_eq_bind, Option.bind_eq_some_iff] at h
      obtain ⟨w₁, h₁, h₂⟩ := h
      rw [← (Prod.mk.inj (Option.some.inj h₂)).1, held_of_sendAnswerPacket h₁]
      rfl
    · simp only [Option.bind_eq_bind, Option.bind_eq_some_iff] at h
      obtain ⟨w₁, h₁, w₂, h₂, w₃, h₃, w₄, h₄, h₅⟩ := h
      -- `mutex_listen` is taken and released inside the section of `mutex_rx_list`.
      obtain ⟨hrx, hheld₁⟩ := held_of_lock h₁
      obtain ⟨hlisten, hheld₃⟩ := held_of_lock h₃
      rw [← (Prod.mk.inj (Option.some.inj h₅)).1, held_of_sendAnswerPacket h₄]
      show Function.update (Function.update w₃.held .listen false) .rxList false = w.held
      rw [hheld₃, update_lock_unlock hlisten, held_of_appendToListTail h₂, hheld₁,
        update_lock_unlock hrx]

/-- `lock_listen` takes the one lock that was free. -/
theorem held_of_lockListen {w w' : World} {v : ListenView} (h : lockListen w v = some w') :
    w.held .listen = false ∧ w'.held = Function.update w.held .listen true := by
  unfold lockListen at h
  rw [Option.bind_eq_bind, Option.bind_eq_some_iff] at h
  obtain ⟨w₁, h₁, h₂⟩ := h
  obtain ⟨hfree, hheld⟩ := held_of_lock h₁
  rw [← Option.some.inj h₂]
  exact ⟨hfree, hheld⟩

/-- However often the polling loop of `link_listen` goes round, it leaves with `mutex_listen`
held once. -/
theorem held_of_listenPoll {vs : List ListenView} {w w' : World}
    (h : listenPoll vs w = some w') :
    w.held .listen = false ∧ w'.held = Function.update w.held .listen true := by
  induction vs generalizing w with
  | nil => exact nomatch h
  | cons v vs ih =>
    rw [listenPoll, Option.bind_eq_bind, Option.bind_eq_some_iff] at h
    obtain ⟨w₁, h₁, h⟩ := h
    obtain ⟨hfree, hheld⟩ := held_of_lockListen h₁
    split at h
    -- `in_listen` is set: this round gives back what it took, and the rest takes it again.
    · obtain ⟨_, hrest⟩ := ih h
      refine ⟨hfree, ?_⟩
      rw [hrest]
      show Function.update (Function.update w₁.held .listen false) .listen true = _
      rw [hheld, update_lock_unlock hfree]
    · rw [← Option.some.inj h]
      exact ⟨hfree, hheld⟩

/-- A `link_listen` that returns has given back its locks. -/
theorem linkListen_balanced {w w' : World} {sets sets' : DevSets} {v : ListenView}
    {vs : List ListenView} {ret : Nat} (h : linkListen w sets v vs = some (w', sets', ret)) :
    w'.held = w.held := by
  unfold linkListen at h
  rw [Option.bind_eq_bind, Option.bind_eq_some_iff] at h
  obtain ⟨w₁, h₁, h⟩ := h
  obtain ⟨hfree, hheld⟩ := held_of_lockListen h₁
  dsimp only at h
  split at h
  · rw [← (Prod.mk.inj (Option.some.inj h)).1]
    show Function.update w₁.held .listen false = _
    rw [hheld, update_lock_unlock hfree]
  -- Nothing was ready. The mutex is released, taken again by the polling, and released.
  · rw [Option.bind_eq_some_iff] at h
    obtain ⟨w₂, h₂, h₃⟩ := h
    obtain ⟨_, hheld₂⟩ := held_of_listenPoll h₂
    rw [← (Prod.mk.inj (Option.some.inj h₃)).1]
    show Function.update w₂.held .listen false = _
    rw [hheld₂, Function.update_idem]
    show Function.update (Function.update w₁.held .listen false) .listen false = _
    rw [Function.update_idem, hheld, update_lock_unlock hfree]

/-- `link_recv` releases `mutex_rx_list` exactly when it finds an item or the list is empty. -/
theorem linkRecv_balanced_iff {w w' : World} {devId : Nat} {ret : Option Ptr}
    (h : linkRecv w devId = some (w', ret)) :
    w'.held = w.held ↔ ¬ Misses w (.recv devId) := by
  unfold linkRecv at h
  split at h
  · rename_i hempty
    rw [← (Prod.mk.inj (Option.some.inj h)).1]
    exact iff_of_true rfl fun hm => hm.1 hempty
  · rename_i hne
    simp only [Option.bind_eq_bind, Option.bind_eq_some_iff] at h
    obtain ⟨w₁, h₁, r, hfind, h⟩ := h
    obtain ⟨hfree, hheld⟩ := held_of_lock h₁
    have hw₁ : w₁.heap = w.heap ∧ w₁.brk = w.brk ∧ w₁.listRx = w.listRx := by
      rw [lock_eq hfree] at h₁
      rw [← Option.some.inj h₁]
      exact ⟨rfl, rfl, rfl⟩
    rw [hw₁.1, hw₁.2.1, hw₁.2.2] at hfind
    have hmiss : Misses w (.recv devId) ↔ r = none := by
      rw [recvFind_eq_none_iff hfind]
      exact and_iff_right hne
    rw [hmiss]
    -- The two ways out of the search: without a match nothing is unlocked.
    cases r with
    | none =>
      refine iff_of_false (fun heq => ?_) (not_not.mpr rfl)
      rw [← (Prod.mk.inj (Option.some.inj h)).1, hheld] at heq
      have := congrFun heq .rxList
      rw [Function.update_self, hfree] at this
      exact nomatch this
    | some p =>
      refine iff_of_true ?_ (fun he => nomatch he)
      simp only [Option.bind_eq_some_iff] at h
      obtain ⟨w₂, h₂, h⟩ := h
      obtain ⟨hlisten, hheld₂⟩ := held_of_lock h₂
      split at h
      · rw [Option.bind_eq_some_iff] at h
        obtain ⟨w₃, h₃, h₄⟩ := h
        rw [← (Prod.mk.inj (Option.some.inj h₄)).1]
        show Function.update w₃.held .rxList false = w.held
        rw [held_of_recvUnlink h₃]
        show Function.update (Function.update w₂.held .listen false) .rxList false = w.held
        rw [hheld₂, update_lock_unlock hlisten, hheld, update_lock_unlock hfree]
      · exact nomatch h

/-- Balanced locks. Take any memory, any arguments and any mutexes held on entry. A call that
returns holds what it held on entry, if and only if it is not a `link_recv` that looks for a
device without an item in a list that is not empty. -/
theorem linkCall_balanced_iff (w w' : World) (c : LinkCall) (hret : c.run w = some w') :
    w'.held = w.held ↔ ¬ Misses w c := by
  cases c with
  | send mallocOk dataOk dst buf =>
    obtain ⟨⟨w₁, ret⟩, h, rfl⟩ := Option.map_eq_some_iff.mp hret
    exact iff_of_true (linkSend_balanced h) id
  | recv devId =>
    obtain ⟨⟨w₁, ret⟩, h, rfl⟩ := Option.map_eq_some_iff.mp hret
    exact linkRecv_balanced_iff h
  | listen sets v vs =>
    obtain ⟨⟨w₁, sets', ret⟩, h, rfl⟩ := Option.map_eq_some_iff.mp hret
    exact iff_of_true (linkListen_balanced h) id
  | eof ppkt =>
    obtain ⟨⟨w₁, ret⟩, h, rfl⟩ := Option.map_eq_some_iff.mp hret
    exact iff_of_true (dealWithEofPacket_balanced h) id

/-- A memory whose `list_rx` holds one item, of device 1. -/
def oneItemWorld : World :=
  { World.init with
    heap := fun p => if p = 0 then some { devId := 1, data := [7] } else none
    brk := 1
    listRx := ⟨some 0, some 0⟩ }

/-- The theorem applied to a `link_recv` that finds its item. -/
theorem linkCall_balanced_iff_found :
    ∃ w', LinkCall.run oneItemWorld (.recv 1) = some w' ∧
      (w'.held = oneItemWorld.held ↔ ¬ Misses oneItemWorld (.recv 1)) :=
  ⟨_, rfl, linkCall_balanced_iff _ _ _ rfl⟩

/-- The same memory and `link_recv(2)`: it returns with `mutex_rx_list` locked. -/
theorem linkRecv_leaves_rxList_locked :
    ¬ ∀ (w w' : World) (c : LinkCall), c.run w = some w' → w'.held = w.held := by
  intro hclaim
  have hheld := hclaim oneItemWorld _ (.recv 2) rfl
  have hlocked := congrFun hheld .rxList
  exact absurd hlocked (by decide)

end LearnGit.Proofs.Uart
