import LearnGit.Proofs.Uart.Arrivals
import LearnGit.Proofs.Uart.ThreadTx
import LearnGit.Uart.System

/-!
# `LearnGit.Proofs.Uart.System`: what is said is handled, once and in order

`said_is_handled`: take a run of the two boards in which no stale frame does harm. The handlers of
the receiving board are called for what the functions of the sending board were called with, in this
order, and at most once for each call. While no call of `tx_data_info` has failed, every message is
accounted for, and at rest every one has been handled.

The invariant has two halves. `SendInv` is about the sending board: `list_tx` holds what was said
and not yet passed to `tx_data_info` (`TxInv` of `ThreadTx.lean`), and `PlaceOk` says where the link
stands while `thread_tx` is at its place. `Told` is about what has come to the receiving board
(`Arrivals.lean`). `dispatch_sending` connects the two: the item of a message is decoded to the call
that the message is for.
-/

set_option autoImplicit false

namespace LearnGit.Proofs.Uart

open LearnGit.Lib
open LearnGit.Uart
open LearnGit.Uart.Link
open LearnGit.Uart.App (AppCall AppCmd MAX_PATH_LENGTH dispatch dispatchRequest)
open LearnGit.Uart.App.Messages

/-! ### Statement -/

/-- The call of a handler that a message is for. -/
def handlerOf : AppMessage → Option AppCall
  | .login protoVersion fwVersion => some (.handleLogin 1 protoVersion fwVersion 0xFF)
  | .ackLogin _ _ _ => some (.handleReqBcf 1)
  | .blf => some (.handleReqBlf 1)
  | .statusInfo => some (.noticeAppExtAskKeyStatus 1)
  | .key keyId info => some (.handleSendKey 1 keyId info)
  | .image name flag => some (.handleReqImage 1 flag (name.take (name.length % 256)))
  | .keyStatus keyId status => some (.handleSendStatus keyId status)
  | .reset => some .handleReset
  | .lcdBacklight lcdType lcdBl => some (.handleLcdBl lcdType lcdBl)
  | .ledStatus ledNum ledColor ledTwinkle ledInterval =>
    some (.handleLedStatus ledNum ledColor ledTwinkle ledInterval)
  | .other item => dispatch 1 item.bytes

/-- The call that an item is decoded to. -/
def decode (i : Item) : Option AppCall := dispatch i.devId i.data

/-- The steps that no stale frame makes go wrong, as in `StopAndWait.lean`. -/
def NotStaleLink (s : System) : SystemEvent → Prop
  | .link e => NotStale s.link e
  | .say _ _ _ | .threadTx | .events => True

instance (s : System) : (e : SystemEvent) → Decidable (NotStaleLink s e)
  | .link e => inferInstanceAs (Decidable (NotStale s.link e))
  | .say _ _ _ | .threadTx | .events => .isTrue trivial

/-- The handlers are called for what was said, in this order and at most once for each message. As
long as no call of `tx_data_info` has failed, a message whose handler has not been called is in
`list_rx`, in the running call or in `list_tx`. So at rest every handler has been called. The two
threads are never stuck: only a running call keeps `thread_tx` waiting. -/
structure HandledInOrder (s : System) : Prop where
  order : s.handled.Sublist (s.said.map handlerOf)
  account : s.failed = false → ∃ running : List (List Byte),
    s.said.map handlerOf = s.handled ++ (rxItems s.link.receiver).map decode
      ++ running.map (dispatch 1) ++ (txQueue s.tx.world 1).map (fun x => dispatch 1 x.2.data) ∧
    running.length ≤ 1 ∧ (s.link.pc = .returned (some 0) → running = [])
  settled : s.failed = false → s.tx.pc = .idle → s.tx.world.txAlive = false →
    rxItems s.link.receiver = [] → s.handled = s.said.map handlerOf
  eventsRun : (systemStep s .events).isSome
  threadTxRuns : (∀ idx p, s.tx.pc = .transmit idx p → ∃ ret, s.link.pc = .returned (some ret)) →
    (systemStep s .threadTx).isSome

/-! ### The messages -/

/-- A message goes to device 1, and its item is decoded to the call it is for. -/
theorem dispatch_sending {m : AppMessage} {dst : Byte} {buf : List Byte}
    (h : m.sending = some (.item dst buf)) :
    dst = 1 ∧ buf.length < 2 ^ 32 ∧ dispatch 1 buf = handlerOf m := by
  cases m with
  | login protoVersion fwVersion =>
    simp only [AppMessage.sending, loginToMainboard, Option.some.injEq, Sending.item.injEq] at h
    obtain ⟨rfl, rfl⟩ := h
    exact ⟨rfl, by simp, rfl⟩
  | ackLogin bcfVersion bckVersion found =>
    simp only [AppMessage.sending, handleAckLogin, Option.some.injEq] at h
    split at h
    · obtain ⟨rfl, rfl⟩ := Sending.item.inj h
      exact ⟨rfl, by simp, rfl⟩
    · exact nomatch h
  | blf =>
    simp only [AppMessage.sending, reqBlf, Option.some.injEq, Sending.item.injEq] at h
    obtain ⟨rfl, rfl⟩ := h
    exact ⟨rfl, by simp, rfl⟩
  | statusInfo =>
    simp only [AppMessage.sending, reqStatusInfo, Option.some.injEq, Sending.item.injEq] at h
    obtain ⟨rfl, rfl⟩ := h
    exact ⟨rfl, by simp, rfl⟩
  | key keyId info =>
    simp only [AppMessage.sending, appSendKey, Option.some.injEq, Sending.item.injEq] at h
    obtain ⟨rfl, rfl⟩ := h
    exact ⟨rfl, by simp, rfl⟩
  | image name flag =>
    simp only [AppMessage.sending, reqImage] at h
    split at h
    · rename_i hfits
      obtain ⟨rfl, rfl⟩ := Sending.item.inj (Option.some.inj h)
      have hlen : (name.take (name.length % 256)).length ≤ 126 := by
        rw [List.length_take]
        omega
      refine ⟨rfl, by simp only [List.length_cons]; omega, ?_⟩
      have hroom : (AppCmd.e2mReqImage.code :: flag
          :: name.take (name.length % 256)).length - 2 ≤ MAX_PATH_LENGTH := by
        simp only [List.length_cons, MAX_PATH_LENGTH]
        omega
      have hrequest : ∀ rest, dispatch 1 (AppCmd.e2mReqImage.code :: rest)
          = dispatchRequest 1 (AppCmd.e2mReqImage.code :: rest) (some .e2mReqImage) :=
        fun _ => rfl
      rw [hrequest]
      simp only [dispatchRequest, List.getElem?_cons_succ, List.getElem?_cons_zero,
        Option.bind_eq_bind, Option.bind_some, if_pos hroom]
      rfl
    · exact nomatch h
  | keyStatus keyId status =>
    simp only [AppMessage.sending, appSendStatus, Option.some.injEq, Sending.item.injEq] at h
    obtain ⟨rfl, rfl⟩ := h
    exact ⟨rfl, by simp, rfl⟩
  | reset =>
    simp only [AppMessage.sending, appSendReset, Option.some.injEq, Sending.item.injEq] at h
    obtain ⟨rfl, rfl⟩ := h
    exact ⟨rfl, by simp, rfl⟩
  | lcdBacklight lcdType lcdBl =>
    simp only [AppMessage.sending, appSendLcdBl, Option.some.injEq] at h
    split at h
    · exact nomatch h
    · split at h
      · exact nomatch h
      · obtain ⟨rfl, rfl⟩ := Sending.item.inj h
        exact ⟨rfl, by simp, rfl⟩
  | ledStatus ledNum ledColor ledTwinkle ledInterval =>
    simp only [AppMessage.sending, appSendLedStatus, Option.some.injEq] at h
    split at h
    · exact nomatch h
    · obtain ⟨rfl, rfl⟩ := Sending.item.inj h
      exact ⟨rfl, by simp, rfl⟩
  | other item =>
    simp only [AppMessage.sending, Option.some.injEq, Sending.item.injEq] at h
    obtain ⟨rfl, rfl⟩ := h
    exact ⟨rfl, item.fits, rfl⟩

/-! ### The sending board -/

/-- The places of `thread_tx` without an item that it still has to send or to mark. -/
def Calm : ThreadTxPc → Prop
  | .fetch _ | .release _ _ | .check | .idle => True
  | .transmit _ _ | .clear _ _ | .mark _ _ _ => False

/-- Where `thread_tx` goes when `tx_data_info` has returned. -/
def afterTransmit (idx : Nat) (p : Ptr) (ret : Int) : ThreadTxPc :=
  if ret = -1 then .clear idx p else if ret = -2 then .mark idx p false else .release idx p

/-- What a step of `thread_tx` does with the items. It takes one, or clears a list after a call that
has failed, or leaves the items where they are. -/
theorem threadTxStep_cases {t t' : TxState} {ret : Int} {portClosed : Bool}
    (h : threadTxStep t ret portClosed = some t') :
    t'.sent = t.sent ∧ t'.clears = t.clears ∧
      ((∃ idx p, t.pc = .fetch idx ∧ t'.pc = .transmit idx p ∧
          t'.removed = (t.remove idx (entryAt t'.world.heap p).toList .taken).removed) ∨
        (∃ idx p, t.pc = .clear idx p ∧ t'.pc = .mark idx p true ∧
          t'.removed = (t.remove idx (txQueue t.world idx) .cleared).removed) ∨
        (∃ idx p, t.pc = .transmit idx p ∧ t'.pc = afterTransmit idx p ret ∧
          t'.removed = t.removed) ∨
        ((∀ idx p, t.pc ≠ .transmit idx p) ∧ Calm t'.pc ∧ t'.removed = t.removed)) := by
  unfold threadTxStep at h
  cases hpc : t.pc with
  | fetch idx =>
    simp only [hpc] at h
    obtain ⟨⟨w, found⟩, _, h⟩ := Option.bind_eq_some_iff.mp h
    cases found with
    | some p =>
      rw [← Option.some.inj h]
      exact ⟨rfl, rfl, Or.inl ⟨idx, p, rfl, rfl, rfl⟩⟩
    | none =>
      rw [← Option.some.inj h]
      refine ⟨rfl, rfl, Or.inr (Or.inr (Or.inr ⟨(fun _ _ he => nomatch he), ?_, rfl⟩))⟩
      show Calm (if idx + 1 < MAX_EXTBOARD then .fetch (idx + 1) else .check)
      split <;> trivial
  | transmit idx p =>
    simp only [hpc] at h
    have hpc' : some { t with pc := afterTransmit idx p ret } = some t' := by
      rw [← h, afterTransmit]
      split
      · rfl
      · split <;> rfl
    rw [← Option.some.inj hpc']
    exact ⟨rfl, rfl, Or.inr (Or.inr (Or.inl ⟨idx, p, rfl, rfl, rfl⟩))⟩
  | clear idx p =>
    simp only [hpc] at h
    obtain ⟨w, _, h⟩ := Option.bind_eq_some_iff.mp h
    rw [← Option.some.inj h]
    exact ⟨rfl, rfl, Or.inr (Or.inl ⟨idx, p, rfl, rfl, rfl⟩)⟩
  | mark idx p failed =>
    simp only [hpc] at h
    obtain ⟨w, _, h⟩ := Option.bind_eq_some_iff.mp h
    rw [← Option.some.inj h]
    exact ⟨rfl, rfl, Or.inr (Or.inr (Or.inr ⟨(fun _ _ he => nomatch he), trivial, rfl⟩))⟩
  | release idx p =>
    simp only [hpc] at h
    rw [← Option.some.inj h]
    exact ⟨rfl, rfl, Or.inr (Or.inr (Or.inr ⟨(fun _ _ he => nomatch he), trivial, rfl⟩))⟩
  | check =>
    simp only [hpc] at h
    obtain ⟨⟨w, empty⟩, _, h⟩ := Option.bind_eq_some_iff.mp h
    rw [← Option.some.inj h]
    refine ⟨rfl, rfl, Or.inr (Or.inr (Or.inr ⟨(fun _ _ he => nomatch he), ?_, rfl⟩))⟩
    show Calm (if empty then .idle else .fetch 0)
    split <;> trivial
  | idle =>
    simp only [hpc] at h
    obtain ⟨⟨w, alive⟩, _, h⟩ := Option.bind_eq_some_iff.mp h
    rw [← Option.some.inj h]
    refine ⟨rfl, rfl, Or.inr (Or.inr (Or.inr ⟨(fun _ _ he => nomatch he), ?_, rfl⟩))⟩
    show Calm (if alive then .fetch 0 else .idle)
    split <;> trivial

/-- Where the link stands while `thread_tx` is at a place: within a call while it transmits, and
between two calls else. -/
def PlaceOk (pc : ThreadTxPc) (link : LinkState) (failed : Bool) : Prop :=
  match pc with
  | .transmit _ _ => link.pc ≠ .returned none
  | .clear _ _ | .mark _ _ _ => Between link failed ∧ failed = true
  | .fetch _ | .release _ _ | .check | .idle => Between link failed

/-- Outside of `transmit` no item is being sent. -/
theorem PlaceOk.between {pc : ThreadTxPc} {link : LinkState} {failed : Bool}
    (h : PlaceOk pc link failed) (hpc : ∀ idx p, pc ≠ .transmit idx p) : Between link failed := by
  cases pc with
  | transmit idx p => exact absurd rfl (hpc idx p)
  | clear idx p => exact h.1
  | mark idx p f => exact h.1
  | fetch idx => exact h
  | release idx p => exact h
  | check => exact h
  | idle => exact h

/-- Between two items every calm place of the thread is right. -/
theorem PlaceOk.of_calm {pc : ThreadTxPc} {link : LinkState} {failed : Bool}
    (h : Between link failed) (hcalm : Calm pc) : PlaceOk pc link failed := by
  cases pc with
  | transmit idx p => exact absurd hcalm id
  | clear idx p => exact absurd hcalm id
  | mark idx p f => exact absurd hcalm id
  | fetch idx => exact h
  | release idx p => exact h
  | check => exact h
  | idle => exact h

/-- The invariant of the sending board, with the link. Everything is for device 1. What has been
said was given to `link_send`, and what was taken off the list was passed to `tx_data_info`. -/
structure SendInv (s : System) (q : Nat → List Ptr) : Prop where
  tx : TxInv s.tx q
  clears : s.tx.clears = []
  others : ∀ idx < MAX_EXTBOARD, idx ≠ 1 → s.tx.sent idx = []
  said : s.said.map AppMessage.sending
    = (s.tx.sent 1).map fun x => some (.item 1 x.2.data)
  nonempty : ∀ x ∈ s.tx.sent 1, x.2.data ≠ []
  passed : s.link.passed = (s.tx.gone .taken 1).map fun x => x.2.data
  kept : s.failed = false → s.tx.gone .cleared 1 = []
  place : PlaceOk s.tx.pc s.link s.failed

/-- What has come to the receiving board, seen through the receiver `r` that keeps its items. -/
structure Told (s : System) (r a : World) (k : Track) (got : List Item)
    (front sub : List (List Byte)) : Prop where
  link : LinkInv (shadow s.link r a) k
  keeps : Keeps r s.link.receiver got
  prior : Prior (shadow s.link r a) s.failed front sub
  handled : s.handled = got.map decode

/-- The invariant of the two boards. -/
def SystemInv (s : System) : Prop :=
  (∃ q, SendInv s q) ∧ ∃ r a k got front sub, Told s r a k got front sub

/-- The invariant holds at the start. -/
theorem systemInv_init : SystemInv System.init := by
  refine ⟨⟨_, txInv_init, rfl, fun _ _ _ => rfl, rfl, fun x hx => ?_, rfl, fun _ => rfl, ?_⟩, ?_⟩
  · exact absurd hx List.not_mem_nil
  · exact ⟨⟨none, rfl⟩, fun _ => rfl, fun _ => Or.inl rfl⟩
  · exact ⟨World.init, World.init, _, [], [], [], linkInv_init,
      ⟨⟨[], rxOk_init⟩, ⟨[], rxOk_init⟩, rfl, rfl, rfl⟩,
      ⟨rfl, List.Sublist.refl _, fun _ => rfl, Or.inr ⟨rfl, rfl⟩⟩, rfl⟩

/-- What has arrived does not change when a call fails or when the sending board works. -/
theorem Told.congr {s s' : System} {r a : World} {k : Track} {got : List Item}
    {front sub : List (List Byte)} (h : Told s r a k got front sub) (hlink : s'.link = s.link)
    (hhandled : s'.handled = s.handled) (hfailed : s'.failed = false → s.failed = false) :
    Told s' r a k got front sub := by
  obtain ⟨hinv, hkeeps, hprior, hgot⟩ := h
  rw [← hlink] at hinv hkeeps hprior
  exact ⟨hinv, hkeeps, ⟨hprior.start, hprior.among, fun hf => hprior.all (hfailed hf),
    hprior.passed⟩, hhandled.trans hgot⟩

/-- The items of a list depend on what was removed alone. -/
theorem gone_congr {t t' : TxState} (h : t'.removed = t.removed) (fate : Fate) (idx : Nat) :
    t'.gone fate idx = t.gone fate idx := by
  rw [TxState.gone, TxState.gone, h]

/-! ### A message is given to `link_send` -/

/-- `link_send` takes the item, or changes no list. -/
theorem txStep_linkSend_cases {t t' : TxState} {q : Nat → List Ptr} (h : TxInv t q)
    {mallocOk dataOk : Bool} {dst : Fin MAX_EXTBOARD} {buf : List Byte}
    (hstep : txStep t (.linkSend mallocOk dataOk dst (some buf)) = some t') :
    t'.pc = t.pc ∧ t'.removed = t.removed ∧ t'.clears = t.clears ∧
      (t'.world.brk = t.world.brk ∧ t'.sent = t.sent ∨
        t'.world.brk = t.world.brk + 1 ∧ buf ≠ [] ∧ t'.sent = Function.update t.sent dst.val
          (t.sent dst.val ++ [(t.world.brk, ⟨dst.val, buf⟩)])) := by
  have hbrk : entryAt t.world.heap t.world.brk = none := by
    rw [entryAt, itemAt, h.lists.fresh _ (Nat.le_refl _)]
    rfl
  have hnothing : ∀ ret, linkSend t.world mallocOk dataOk dst.val (some buf) = some (t.world, ret) →
      t' = t := by
    intro ret hsend
    simp only [txStep, hsend, Option.bind_eq_bind, Option.bind_some, hbrk, Option.toList_none,
      List.append_nil, Function.update_eq_self] at hstep
    exact (Option.some.inj hstep).symm
  by_cases hlen : buf.length = 0
  · rw [hnothing 0 (by simp only [linkSend, hlen, if_true])]
    exact ⟨rfl, rfl, rfl, Or.inl ⟨rfl, rfl⟩⟩
  cases mallocOk with
  | false =>
    rw [hnothing (-1) (by simp [linkSend, hlen])]
    exact ⟨rfl, rfl, rfl, Or.inl ⟨rfl, rfl⟩⟩
  | true =>
    cases dataOk with
    | false =>
      rw [hnothing (-2) (by simp [linkSend, hlen])]
      exact ⟨rfl, rfl, rfl, Or.inl ⟨rfl, rfl⟩⟩
    | true =>
      obtain ⟨w', hsend, _, hbrk', _, _, hitem, _⟩ :=
        linkSend_appends h.lists (h.unlocked .txList) dst hlen
      have hentry : entryAt w'.heap t.world.brk = some (t.world.brk, ⟨dst.val, buf⟩) := by
        rw [entryAt, hitem]
        rfl
      simp only [txStep, hsend, Option.bind_eq_bind, Option.bind_some, hentry,
        Option.toList_some] at hstep
      rw [← Option.some.inj hstep]
      exact ⟨rfl, rfl, rfl, Or.inr ⟨hbrk', fun hnil => hlen (by rw [hnil]; rfl), rfl⟩⟩

/-- A call of a function of `app_proto.c` on the sending board leaves the world that the function
leaves, with the `link_send` of the link layer. -/
theorem sayStep_run {s s' : System} {m : AppMessage} {mallocOk dataOk : Bool}
    (hstep : sayStep s m mallocOk dataOk = some s') :
    ∃ sending ret, m.sending = some sending ∧
      sending.run (fun w dst buf => linkSend w mallocOk dataOk dst (some buf)) s.tx.world
        = some (s'.tx.world, ret) := by
  obtain ⟨sending, hm, hstep⟩ := Option.bind_eq_some_iff.mp hstep
  refine ⟨sending, ?_⟩
  cases sending with
  | returned ret =>
    rw [← Option.some.inj hstep]
    exact ⟨ret, hm, rfl⟩
  | item dst buf =>
    dsimp only at hstep
    split at hstep
    case isTrue hdst =>
      obtain ⟨tx, htx, hs'⟩ := Option.bind_eq_some_iff.mp hstep
      obtain ⟨⟨w, ret⟩, hsend, htx⟩ := Option.bind_eq_some_iff.mp htx
      rw [← Option.some.inj hs', ← Option.some.inj htx]
      refine ⟨if ret < 0 then ret else 0, hm, ?_⟩
      rw [Sending.run]
      simp only [hsend, Option.bind_eq_bind, Option.bind_some]
      rfl
    case isFalse => cases hstep

/-- Something that is said keeps the invariant. -/
theorem systemInv_say {s s' : System} (h : SystemInv s) {m : AppMessage} {mallocOk dataOk : Bool}
    (hstep : sayStep s m mallocOk dataOk = some s') : SystemInv s' := by
  obtain ⟨⟨q, hsend⟩, r, a, k, got, front, sub, htold⟩ := h
  obtain ⟨sending, hm, hstep⟩ := Option.bind_eq_some_iff.mp hstep
  cases sending with
  | returned ret =>
    rw [← Option.some.inj hstep]
    exact ⟨⟨q, hsend⟩, r, a, k, got, front, sub, htold⟩
  | item dst buf =>
    obtain ⟨rfl, _, _⟩ := dispatch_sending hm
    obtain ⟨tx, htx, hs'⟩ := Option.bind_eq_some_iff.mp hstep
    rw [← Option.some.inj hs']
    obtain ⟨q', hinv⟩ := txInv_step hsend.tx htx
    obtain ⟨hpc, hremoved, hclears, hcases⟩ := txStep_linkSend_cases hsend.tx htx
    -- Below, the first case of `hcases` is a call that took nothing, and the second one appended.
    refine ⟨⟨q', ?_⟩, r, a, k, got, front, sub, htold.congr rfl rfl fun hf => hf⟩
    refine ⟨hinv, hclears.trans hsend.clears, ?_, ?_, ?_, ?_, ?_, ?_⟩
    all_goals dsimp only
    · intro idx hidx hne
      rcases hcases with ⟨_, hsent⟩ | ⟨_, _, hsent⟩
      · rw [hsent]
        exact hsend.others idx hidx hne
      · rw [hsent, Function.update_of_ne (show idx ≠ (1 : Byte).toNat from hne)]
        exact hsend.others idx hidx hne
    · rcases hcases with ⟨hbrk, hsent⟩ | ⟨hbrk, _, hsent⟩
      · rw [if_neg (not_not.mpr hbrk), hsent]
        exact hsend.said
      · rw [if_pos (by rw [hbrk]; exact Nat.succ_ne_self _), hsent, List.map_append, hsend.said]
        show _ ++ [m.sending] = (Function.update s.tx.sent 1 (s.tx.sent 1 ++ _) 1).map _
        rw [Function.update_self, List.map_append, hm]
        rfl
    · rcases hcases with ⟨_, hsent⟩ | ⟨_, hne, hsent⟩
      · rw [hsent]
        exact hsend.nonempty
      · rw [hsent]
        show ∀ x ∈ Function.update s.tx.sent 1 (s.tx.sent 1 ++ _) 1, _
        rw [Function.update_self]
        intro x hx
        rcases List.mem_append.mp hx with hx | hx
        · exact hsend.nonempty x hx
        · rw [List.mem_singleton.mp hx]
          exact hne
    · rw [gone_congr hremoved]
      exact hsend.passed
    · rw [gone_congr hremoved]
      exact hsend.kept
    · rw [hpc]
      exact hsend.place

/-! ### A step of `thread_tx` -/

/-- What is gone behind a removal is what was gone and what is removed. -/
theorem gone_remove (t : TxState) (idx j : Nat) (items : List (Ptr × Item)) (fate fate' : Fate) :
    (t.remove idx items fate).gone fate' j
      = t.gone fate' j ++ if j = idx ∧ fate = fate' then items else [] := by
  show List.map Prod.fst (List.filter _ (Function.update t.removed idx _ j)) = _
  by_cases hj : j = idx
  · rw [hj, Function.update_self, List.filter_append, List.map_append]
    by_cases hfate : fate = fate'
    · rw [if_pos ⟨rfl, hfate⟩, List.filter_map, hfate]
      simp [TxState.gone, Function.comp_def]
    · rw [if_neg (fun hc => hfate hc.2), List.filter_map]
      simp [TxState.gone, Function.comp_def, hfate]
  · rw [Function.update_of_ne hj]
    simp [hj, TxState.gone]

/-- An item that `thread_tx` takes was said. -/
theorem SendInv.taken {s : System} {q q' : Nat → List Ptr} (h : SendInv s q) {t' : TxState}
    (hinv : TxInv t' q') (hsent : t'.sent = s.tx.sent) {idx : Nat} {p : Ptr}
    (hpc : t'.pc = .transmit idx p)
    (hremoved : t'.removed
      = (s.tx.remove idx (entryAt t'.world.heap p).toList .taken).removed) :
    idx = 1 ∧ ∃ n, t'.world.heap p = some n ∧ n.data ≠ [] ∧ n.data.length < 2 ^ 32 ∧
      t'.gone .taken 1 = s.tx.gone .taken 1 ++ [(p, itemOf n)] ∧
      t'.gone .cleared 1 = s.tx.gone .cleared 1 := by
  have hplace := hinv.pc
  rw [hpc] at hplace
  obtain ⟨hidx, ⟨item, hitem, _⟩, _⟩ := hplace
  obtain ⟨n, hn, rfl⟩ := Option.map_eq_some_iff.mp hitem
  have hentry : entryAt t'.world.heap p = some (p, itemOf n) := by
    rw [entryAt, hitem]
    rfl
  rw [hentry] at hremoved
  have hmem : (p, itemOf n) ∈ s.tx.sent idx := by
    rw [← hsent, hinv.split idx hidx, hremoved]
    show _ ∈ (Function.update s.tx.removed idx _ idx).map Prod.fst ++ _
    rw [Function.update_self]
    simp
  have hone : idx = 1 := by
    by_contra hne
    rw [h.others idx hidx hne] at hmem
    exact absurd hmem List.not_mem_nil
  rw [hone] at hmem hremoved
  refine ⟨hone, n, hn, h.nonempty _ hmem, ?_, ?_, ?_⟩
  · -- A message that was said has this item.
    have hsaid : some (Sending.item 1 n.data) ∈ s.said.map AppMessage.sending := by
      rw [h.said]
      exact List.mem_map.mpr ⟨_, hmem, rfl⟩
    obtain ⟨m, _, hm⟩ := List.mem_map.mp hsaid
    exact (dispatch_sending hm).2.1
  · rw [gone_congr hremoved, gone_remove, if_pos ⟨rfl, rfl⟩]
    rfl
  · rw [gone_congr hremoved, gone_remove, if_neg (fun hc => by cases hc.2), List.append_nil]

/-- A step of `thread_tx` gives no item to `link_send`. -/
theorem SendInv.moved {s s' : System} {q q' : Nat → List Ptr} (h : SendInv s q)
    (hinv : TxInv s'.tx q') (hsent : s'.tx.sent = s.tx.sent) (hclears : s'.tx.clears = s.tx.clears)
    (hsaid : s'.said = s.said)
    (hpassed : s'.link.passed = (s'.tx.gone .taken 1).map fun x => x.2.data)
    (hkept : s'.failed = false → s'.tx.gone .cleared 1 = [])
    (hplace : PlaceOk s'.tx.pc s'.link s'.failed) : SendInv s' q' where
  tx := hinv
  clears := hclears.trans h.clears
  others := by
    rw [hsent]
    exact h.others
  said := by
    rw [hsaid, hsent]
    exact h.said
  nonempty := by
    rw [hsent]
    exact h.nonempty
  passed := hpassed
  kept := hkept
  place := hplace

variable {s : System} {q : Nat → List Ptr} {r a : World} {k : Track} {got : List Item}
  {front sub : List (List Byte)}

/-- A step outside of `tx_data_info`. -/
theorem takeStep_spec (h : SendInv s q) (htold : Told s r a k got front sub)
    (hpc : ∀ idx p, s.tx.pc ≠ .transmit idx p) :
    ∃ s', takeStep s = some s' ∧ SystemInv s' := by
  obtain ⟨tx, q', hstep, hinv⟩ := threadTxStep_spec h.tx 0 false
  have hbetween : Between s.link s.failed := h.place.between hpc
  obtain ⟨hsent, hclears, hcases⟩ := threadTxStep_cases hstep
  rcases hcases with ⟨idx, p, _, hto, hremoved⟩ | ⟨idx, p, hfrom, hto, hremoved⟩ |
    ⟨idx, p, hfrom, _⟩ | ⟨_, hcalm, hremoved⟩
  · -- An item is taken, and the call begins.
    obtain ⟨rfl, n, hn, hne, hlen, htaken, hcleared⟩ := h.taken hinv hsent hto hremoved
    obtain ⟨ret, hret⟩ := hbetween.returned
    refine ⟨{ s with tx := tx, link := called s.link n.data }, ?_, ⟨q', ?_⟩, ?_⟩
    · simp only [takeStep, hstep, hto, Option.bind_eq_bind, Option.bind_some, hn,
        linkStep_called hret hne hlen]
      rfl
    · refine h.moved hinv hsent hclears rfl ?_ ?_ ?_
      · rw [htaken, List.map_append]
        show s.link.passed ++ [n.data] = _
        rw [h.passed]
        rfl
      · rw [hcleared]
        exact h.kept
      · rw [hto]
        exact fun he => nomatch he
    · obtain ⟨k', front', sub', hlink, hprior⟩ :=
        prior_called htold.link htold.prior hbetween hne hlen
      exact ⟨r, r, k', got, front', sub', hlink, htold.keeps, hprior, htold.handled⟩
  · -- The list is cleared, which happens after a call that failed.
    have hplace := h.place
    rw [hfrom] at hplace
    refine ⟨{ s with tx := tx }, ?_, ⟨q', ?_⟩, r, a, k, got, front, sub,
      htold.congr rfl rfl fun hf => hf⟩
    · simp only [takeStep, hstep, hto, Option.bind_eq_bind, Option.bind_some]
      rfl
    · refine h.moved hinv hsent hclears rfl ?_ (fun hf => ?_) ?_
      · rw [gone_congr hremoved, gone_remove, if_neg (fun hc => by cases hc.2), List.append_nil]
        exact h.passed
      · exact absurd (hplace.2.symm.trans hf) (by decide)
      · rw [hto]
        exact hplace
  · exact absurd hfrom (hpc idx p)
  · -- Nothing leaves a list.
    refine ⟨{ s with tx := tx }, ?_, ⟨q', ?_⟩, r, a, k, got, front, sub,
      htold.congr rfl rfl fun hf => hf⟩
    · simp only [takeStep, hstep, Option.bind_eq_bind, Option.bind_some]
      cases hto : tx.pc with
      | transmit idx p =>
        rw [hto] at hcalm
        exact absurd hcalm id
      | _ => rfl
    · refine h.moved hinv hsent hclears rfl ?_ ?_ (.of_calm hbetween hcalm)
      · rw [gone_congr hremoved]
        exact h.passed
      · rw [gone_congr hremoved]
        exact h.kept

/-- `thread_tx` can take its next step as soon as the call it waits for has returned. -/
theorem threadTxSystem_spec (h : SendInv s q) (htold : Told s r a k got front sub)
    (hready : ∀ idx p, s.tx.pc = .transmit idx p → ∃ ret, s.link.pc = .returned (some ret)) :
    ∃ s', threadTxSystem s = some s' ∧ SystemInv s' := by
  by_cases htransmit : ∃ idx p, s.tx.pc = .transmit idx p
  · -- The call has returned, which changes `failed` and the place of `thread_tx` alone.
    obtain ⟨idx, p, hpc⟩ := htransmit
    obtain ⟨ret, hret⟩ := hready idx p hpc
    obtain ⟨tx, q', hstep, hinv⟩ := threadTxStep_spec h.tx ret false
    obtain ⟨hsent, hclears, hcases⟩ := threadTxStep_cases hstep
    have hmoved : tx.pc = afterTransmit idx p ret ∧ tx.removed = s.tx.removed := by
      rcases hcases with ⟨_, _, hfrom, _⟩ | ⟨_, _, hfrom, _⟩ | ⟨_, _, hfrom, hto, hremoved⟩ |
        ⟨hne, _⟩
      · exact nomatch hfrom.symm.trans hpc
      · exact nomatch hfrom.symm.trans hpc
      · obtain ⟨rfl, rfl⟩ := ThreadTxPc.transmit.inj (hfrom.symm.trans hpc)
        exact ⟨hto, hremoved⟩
      · exact absurd hpc (hne idx p)
    obtain ⟨hto, hremoved⟩ := hmoved
    refine ⟨{ s with tx := tx, failed := s.failed || ret ≠ 0 }, ?_, ⟨q', ?_⟩, r, a, k, got, front,
      sub, htold.congr rfl rfl fun hf => (Bool.or_eq_false_iff.mp hf).1⟩
    · simp only [threadTxSystem, hpc, hret, hstep, Option.bind_eq_bind, Option.bind_some]
      rfl
    · have hbetween : Between s.link (s.failed || ret ≠ 0) := by
        refine ⟨⟨_, hret⟩, (fun he => nomatch hret.symm.trans he), fun hf => Or.inr ?_⟩
        have hzero : ret = 0 := by simpa using (Bool.or_eq_false_iff.mp hf).2
        rw [hret, hzero]
      refine h.moved hinv hsent hclears rfl ?_ (fun hf => ?_) ?_
      · rw [gone_congr hremoved]
        exact h.passed
      · rw [gone_congr hremoved]
        exact h.kept (Bool.or_eq_false_iff.mp hf).1
      · rw [hto, afterTransmit]
        split
        · rename_i hneg
          exact ⟨hbetween, by simp [hneg]⟩
        · split
          · rename_i hneg
            exact ⟨hbetween, by simp [hneg]⟩
          · exact hbetween
  · have hpc : ∀ idx p, s.tx.pc ≠ .transmit idx p := fun idx p he => htransmit ⟨idx, p, he⟩
    obtain ⟨s', hstep, hinv⟩ := takeStep_spec h htold hpc
    refine ⟨s', ?_, hinv⟩
    unfold threadTxSystem
    split
    · rename_i idx p he
      exact absurd he (hpc idx p)
    · exact hstep

/-! ### A step of the link and a step of the receiving board -/

/-- A link that returns no sooner keeps the thread's place right. -/
theorem PlaceOk.imp {pc : ThreadTxPc} {l l' : LinkState} {failed : Bool} (h : PlaceOk pc l failed)
    (hnone : l'.pc = .returned none → l.pc = .returned none)
    (hbetween : Between l failed → Between l' failed) : PlaceOk pc l' failed := by
  cases pc with
  | transmit idx p => exact fun he => h (hnone he)
  | clear idx p => exact ⟨hbetween h.1, h.2⟩
  | mark idx p f => exact ⟨hbetween h.1, h.2⟩
  | fetch idx => exact hbetween h
  | release idx p => exact hbetween h
  | check => exact hbetween h
  | idle => exact hbetween h

/-- The receiver does not matter for the place of the sender. -/
theorem PlaceOk.receiver {pc : ThreadTxPc} {l : LinkState} {failed : Bool}
    (h : PlaceOk pc l failed) (w : World) : PlaceOk pc { l with receiver := w } failed :=
  h.imp id fun hb => ⟨hb.returned, hb.first, hb.good⟩

/-- A step of the link keeps the thread's place right. -/
theorem PlaceOk.linkStep {pc : ThreadTxPc} {l l' : LinkState} {failed : Bool}
    (h : PlaceOk pc l failed) {e : LinkEvent} (hcall : ∀ data, e ≠ .call data)
    (hstep : linkStep l e = some l') : PlaceOk pc l' failed := by
  obtain ⟨hpassed, _, _, hreturned, hnone⟩ := linkStep_frame hcall hstep
  have hkeep : Between l failed → Between l' failed := by
    intro hb
    obtain ⟨ret, hret⟩ := hb.returned
    refine ⟨⟨ret, hreturned ret hret⟩, fun he => ?_, fun hf => ?_⟩
    · rw [hpassed]
      exact hb.first (hnone he)
    · exact (hb.good hf).imp (hreturned _) (hreturned _)
  exact h.imp hnone hkeep

/-- A step of the link keeps the invariant, if no frame is stale. -/
theorem systemInv_link (h : SystemInv s) {e : LinkEvent} (hcall : ∀ data, e ≠ .call data)
    (hok : NotStale s.link e) {l : LinkState} (hstep : linkStep s.link e = some l) :
    SystemInv { s with link := l } := by
  obtain ⟨⟨q, hsend⟩, r, a, k, got, front, sub, htold⟩ := h
  obtain ⟨hpassed, hitem, _⟩ := linkStep_frame hcall hstep
  obtain ⟨r', k', hlink, hkeeps⟩ := keeps_linkStep hcall htold.link htold.keeps hok hstep
  refine ⟨⟨q, { hsend with
    passed := hpassed.trans hsend.passed, place := hsend.place.linkStep hcall hstep }⟩,
    r', a, k', got, front, sub, hlink, hkeeps, ?_, htold.handled⟩
  refine ⟨htold.prior.start, htold.prior.among, htold.prior.all, ?_⟩
  show l.passed = front ++ [l.item] ∨ l.passed = [] ∧ front = []
  rw [hpassed, hitem]
  exact htold.prior.passed

/-- A step of the receiving board that changes `in_listen` alone. -/
theorem systemInv_listened (hsend : SendInv s q) (htold : Told s r a k got front sub)
    (inListen : Bool) (pc : EventsPc) :
    SystemInv { s with
      link := { s.link with receiver := { s.link.receiver with inListen := inListen } }
      events := pc } := by
  obtain ⟨ps, hok⟩ := htold.keeps.realOk
  refine ⟨⟨q, { hsend with place := ?_ }⟩, r, a, k, got, front, sub, htold.link,
    ⟨htold.keeps.ghostOk, ⟨ps, hok.listened inListen⟩, htold.keeps.slot, htold.keeps.expect,
      htold.keeps.items⟩, htold.prior, htold.handled⟩
  exact hsend.place.receiver _

/-- `mutex_listen` is given back. -/
theorem unlock_listened {w : World} (h : w.held .listen = false) (inListen : Bool) :
    ({ w with held := Function.update w.held .listen true, inListen := inListen } : World).unlock
      .listen = { w with inListen := inListen } := by
  simp only [World.unlock, update_lock_unlock h]

/-- `wait_and_handle_events` can always take its next step. -/
theorem eventsStep_spec (hsend : SendInv s q) (htold : Told s r a k got front sub) :
    ∃ s', eventsStep s = some s' ∧ SystemInv s' := by
  obtain ⟨ps, hok⟩ := htold.keeps.realOk
  have hfree : s.link.receiver.held .listen = false := hok.unlocked .listen
  unfold eventsStep
  cases s.events with
  | listen =>
    simp only [lock_eq hfree, Option.bind_eq_bind, Option.bind_some]
    refine ⟨_, rfl, ?_⟩
    split
    · rw [unlock_listened hfree s.link.receiver.inListen]
      exact systemInv_listened hsend htold _ _
    · rw [unlock_listened hfree true]
      exact systemInv_listened hsend htold _ _
  | poll =>
    simp only [lock_eq hfree, Option.bind_eq_bind, Option.bind_some]
    refine ⟨_, rfl, ?_⟩
    rw [unlock_listened hfree s.link.receiver.inListen]
    exact systemInv_listened hsend htold _ _
  | recv =>
    have hone : ∀ i ∈ rxItems s.link.receiver, i.devId = 1 := by
      intro i hi
      refine (htold.link.passed i ?_).1
      show i ∈ rxItems r
      rw [htold.keeps.items]
      exact List.mem_append_right _ hi
    rcases recv_round hok hone with ⟨_, hrecv⟩ | ⟨w', p, n, i, items, ps', hitems, hrecv, hn, hni,
      hok', hview, hrest⟩
    · simp only [hrecv, Option.bind_eq_bind, Option.bind_some]
      exact ⟨_, rfl, systemInv_listened hsend htold _ _⟩
    · simp only [hrecv, Option.bind_eq_bind, Option.bind_some, hn]
      refine ⟨_, rfl, ⟨q, { hsend with place := hsend.place.receiver _ }⟩, r, a, k, got ++ [i],
        front, sub, htold.link, ⟨htold.keeps.ghostOk, ⟨ps', hok'⟩, ?_, ?_, ?_⟩, htold.prior, ?_⟩
      · show rxSlot r = (view (w'.free p)).slot
        rw [hview]
        exact htold.keeps.slot
      · show r.pktNum = (view (w'.free p)).expect
        rw [hview]
        exact htold.keeps.expect
      · show rxItems r = got ++ [i] ++ rxItems (w'.free p)
        rw [hrest, htold.keeps.items, hitems, List.append_assoc]
        rfl
      · -- The item that leaves the queue is the next one that was kept.
        show s.handled ++ [dispatch n.devId n.data] = _
        rw [htold.handled, List.map_append, ← hni]
        rfl

/-! ### The runs -/

/-- A step of the link is no call, and it changes the link alone. -/
theorem systemStep_link {s' : System} {e : LinkEvent} (hcall : ∀ data, e ≠ .call data)
    (hstep : systemStep s (.link e) = some s') :
    ∃ l, linkStep s.link e = some l ∧ s' = { s with link := l } := by
  cases e with
  | call data => exact absurd rfl (hcall data)
  | _ =>
    obtain ⟨l, hl, hs'⟩ := Option.bind_eq_some_iff.mp hstep
    exact ⟨l, hl, (Option.some.inj hs').symm⟩

/-- Every step that meets the condition keeps the invariant. -/
theorem systemInv_step {s' : System} {e : SystemEvent} (h : SystemInv s) (hok : NotStaleLink s e)
    (hstep : systemStep s e = some s') : SystemInv s' := by
  cases e with
  | say m mallocOk dataOk => exact systemInv_say h hstep
  | threadTx =>
    obtain ⟨⟨q, hsend⟩, r, a, k, got, front, sub, htold⟩ := h
    have hready : ∀ idx p, s.tx.pc = .transmit idx p →
        ∃ ret, s.link.pc = .returned (some ret) := by
      intro idx p hpc
      simp only [systemStep, threadTxSystem, hpc] at hstep
      split at hstep
      · rename_i ret hret
        exact ⟨ret, hret⟩
      · exact nomatch hstep
    obtain ⟨t, hnext, hinv⟩ := threadTxSystem_spec hsend htold hready
    rw [← Option.some.inj (hnext.symm.trans hstep)]
    exact hinv
  | events =>
    obtain ⟨⟨q, hsend⟩, r, a, k, got, front, sub, htold⟩ := h
    obtain ⟨t, hnext, hinv⟩ := eventsStep_spec hsend htold
    rw [← Option.some.inj (hnext.symm.trans hstep)]
    exact hinv
  | link e =>
    have hcall : ∀ data, e ≠ .call data := by
      rintro data rfl
      exact nomatch hstep
    obtain ⟨l, hl, rfl⟩ := systemStep_link hcall hstep
    exact systemInv_link h hcall hok hl

/-- Two lists that agree through one pair of functions agree through another that follows it. -/
theorem map_eq_map_of {α β γ δ : Type} {f : α → γ} {g : β → γ} {f' : α → δ} {g' : β → δ}
    (h : ∀ a b, f a = g b → f' a = g' b) :
    ∀ (l : List α) (l' : List β), l.map f = l'.map g → l.map f' = l'.map g'
  | [], [], _ => rfl
  | [], _ :: _, heq => nomatch heq
  | _ :: _, [], heq => nomatch heq
  | a :: l, b :: l', heq => by
    obtain ⟨hab, hrest⟩ := List.cons.inj heq
    rw [List.map_cons, List.map_cons, h a b hab, map_eq_map_of h l l' hrest]

/-- What was said, in terms of the items given to `link_send`. -/
theorem SendInv.said_eq (h : SendInv s q) :
    s.said.map handlerOf = (s.tx.sent 1).map fun x => dispatch 1 x.2.data :=
  map_eq_map_of (fun _ _ hm => (dispatch_sending hm).2.2.symm) _ _ h.said

/-- When nothing was cleared, the items that left a list were taken. -/
theorem removed_eq_taken {t : TxState} {idx : Nat} (h : t.gone .cleared idx = []) :
    (t.removed idx).map Prod.fst = t.gone .taken idx := by
  rw [TxState.gone, List.filter_eq_self.mpr]
  rintro ⟨x, fate⟩ hx
  cases fate with
  | taken => rfl
  | cleared =>
    have hmem : x ∈ t.gone .cleared idx := List.mem_map.mpr ⟨(x, .cleared), by simp [hx], rfl⟩
    rw [h] at hmem
    exact absurd hmem List.not_mem_nil

/-- In a state of the invariant what was said is handled in its order. -/
theorem SystemInv.handledInOrder (h : SystemInv s) : HandledInOrder s := by
  obtain ⟨⟨q, hsend⟩, r, a, k, got, front, sub, htold⟩ := h
  obtain ⟨arrived, hitems, hamong, hall⟩ := arrived_items htold.link htold.prior
  have hone : 1 < MAX_EXTBOARD := by decide
  have hsplit := hsend.tx.split 1 hone
  have harrived : arrived.map (dispatch 1)
      = s.handled ++ (rxItems s.link.receiver).map decode := by
    have hdecode : (rxItems r).map decode = arrived.map (dispatch 1) := by
      rw [show rxItems r = arrived.map (Item.mk 1) from hitems, List.map_map]
      rfl
    rw [← hdecode, htold.keeps.items, List.map_append, htold.handled]
  have haccount : s.failed = false → ∃ running : List (List Byte),
      s.said.map handlerOf = s.handled ++ (rxItems s.link.receiver).map decode
        ++ running.map (dispatch 1) ++ (txQueue s.tx.world 1).map (fun x => dispatch 1 x.2.data) ∧
      running.length ≤ 1 ∧ (s.link.pc = .returned (some 0) → running = []) ∧
      (s.link.passed = [] → running = []) := by
    intro hf
    have hsent : s.said.map handlerOf = s.link.passed.map (dispatch 1)
        ++ (txQueue s.tx.world 1).map fun x => dispatch 1 x.2.data := by
      rw [hsend.said_eq, hsplit, removed_eq_taken (hsend.kept hf), List.map_append,
        hsend.tx.lists.txQueue_eq hone, hsend.passed, List.map_map]
      rfl
    -- All that was passed has arrived, or all but the item of the running call.
    rcases hall hf with hpassed | ⟨hpassed, hbusy⟩
    · refine ⟨[], ?_, Nat.zero_le _, fun _ => rfl, fun _ => rfl⟩
      rw [hsent, ← show arrived = s.link.passed from hpassed, harrived]
      simp
    · refine ⟨[s.link.item], ?_, Nat.le_refl 1, fun hpc => absurd hpc hbusy, fun hnil => ?_⟩
      · rw [hsent, show s.link.passed = arrived ++ [s.link.item] from hpassed, List.map_append,
          harrived]
      · rw [show (shadow s.link r a).passed = s.link.passed from rfl, hnil] at hpassed
        exact absurd hpassed.symm (by simp)
  refine ⟨?_, fun hf => ?_, fun hf hidle halive hempty => ?_, ?_, fun hready => ?_⟩
  · -- handled ⊑ arrived ⊑ passed ⊑ sent
    rw [hsend.said_eq]
    have hhandled : s.handled.Sublist (arrived.map (dispatch 1)) := by
      rw [harrived]
      exact List.sublist_append_left _ _
    refine hhandled.trans ((hamong.map (dispatch 1)).trans ?_)
    show (s.link.passed.map (dispatch 1)).Sublist _
    rw [hsend.passed, List.map_map]
    refine List.Sublist.map (fun x : Ptr × Item => dispatch 1 x.2.data) ?_
    rw [hsplit]
    exact (gone_sublist s.tx .taken 1).trans (List.sublist_append_left _ _)
  · obtain ⟨running, heq, hlen, hdone, _⟩ := haccount hf
    exact ⟨running, heq, hlen, hdone⟩
  · obtain ⟨running, heq, _, hdone, hnone⟩ := haccount hf
    have hbetween : Between s.link s.failed := by
      have hplace := hsend.place
      rw [hidle] at hplace
      exact hplace
    have hrunning : running = [] := (hbetween.good hf).elim (fun hn => hnone (hbetween.first hn)) hdone
    have hqueue : txQueue s.tx.world 1 = [] := by
      rw [hsend.tx.lists.txQueue_eq hone, hsend.tx.asleep hidle halive 1 hone]
      rfl
    rw [heq, hempty, hrunning, hqueue]
    simp
  · obtain ⟨t, hnext, _⟩ := eventsStep_spec hsend htold
    rw [show systemStep s .events = eventsStep s from rfl, hnext]
    rfl
  · obtain ⟨t, hnext, _⟩ := threadTxSystem_spec hsend htold hready
    rw [show systemStep s .threadTx = threadTxSystem s from rfl, hnext]
    rfl

/-- In every run of the two boards in which no stale frame does harm, the handlers of the receiving
board are called for what the sending board has said, in order and at most once each; and unless a
call of `tx_data_info` fails, nothing is lost. -/
theorem said_is_handled (es : List SystemEvent) (s : System)
    (h : system.Run NotStaleLink es s) : HandledInOrder s := by
  have hinv : SystemInv s :=
    h.invariant (I := SystemInv) systemInv_init fun _ _ _ hok hs hstep => systemInv_step hs hok hstep
  exact hinv.handledInOrder

/-- A key and a request. The first acknowledgement of the key is lost. -/
def talk : List SystemEvent :=
  [.say (.key 3 1) true true, .say .blf true true, .threadTx, .threadTx]
    ++ ([.send, .deliver, .loseAnswer 0, .timeout, .send, .deliver, .takeAnswer, .signal, .wake,
      .send, .deliver, .takeAnswer, .signal, .wake].map SystemEvent.link)
    ++ [.events, .events, .threadTx, .threadTx, .threadTx]
    ++ ([.send, .deliver, .takeAnswer, .signal, .wake, .send, .deliver, .takeAnswer, .signal,
      .wake].map SystemEvent.link)
    ++ [.events, .events] ++ List.replicate 12 .threadTx

/-- At its end both handlers have been called, and `thread_tx` sleeps. -/
theorem said_is_handled_talk :
    ∃ s, system.Run NotStaleLink talk s ∧ s.failed = false ∧ s.tx.pc = .idle ∧
      s.handled = [some (.handleSendKey 1 3 1), some (.handleReqBlf 1)] ∧ HandledInOrder s := by
  have heval : (system.execOk NotStaleLink talk).map (fun s => (s.failed, s.tx.pc, s.handled))
      = some (false, .idle, [some (.handleSendKey 1 3 1), some (.handleReqBlf 1)]) := by
    decide +kernel
  obtain ⟨s, hs, hend⟩ := Option.map_eq_some_iff.mp heval
  simp only [Prod.mk.injEq] at hend
  obtain ⟨hfailed, hpc, hhandled⟩ := hend
  have hrun := Machine.Run.of_execOk hs
  exact ⟨s, hrun, hfailed, hpc, hhandled, said_is_handled _ s hrun⟩

end LearnGit.Proofs.Uart
