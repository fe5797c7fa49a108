import LearnGit.Proofs.Uart.StopAndWait

/-!
# `LearnGit.Proofs.Uart.Arrivals`: the link with an application that takes the items out

In `StopAndWait.lean` the queue of the receiver only grows. Here an application empties it with
`link_recv` between the steps of the link. The items taken out are put back in front of the queue of
a second receiver (`Keeps`), which sees the same frames and writes the same answers. So the link with
this receiver instead of the real one is a run of `StopAndWait.lean`, and its invariant says what
has arrived: `arrived_items`.

`keeps_linkStep` is a step of the link, `recv_round` a round of the loop around `link_recv`, and
`prior_called` the next call of `tx_data_info`.
-/

set_option autoImplicit false

namespace LearnGit.Proofs.Uart

open LearnGit.Lib
open LearnGit.Uart.Link

/-! ### The receiving board -/

/-- What `link_listen` changes does not concern the lists. -/
theorem RxOk.listened {w : World} {ps : List Ptr} (h : RxOk w ps) (inListen : Bool) :
    RxOk { w with inListen := inListen } ps :=
  ⟨h.unlocked, h.fresh, h.list, h.slot, h.slot_inj⟩

/-- `app_proto_process` frees the item that `link_recv` has taken out. -/
theorem RxOk.free {w : World} {ps : List Ptr} (h : RxOk w ps) {p : Ptr} (hp : p ∉ ps)
    (hslot : ∀ idx, w.dataItemList idx ≠ some p) :
    RxOk (w.free p) ps ∧ view (w.free p) = view w := by
  -- Neither the list nor a slot holds `p`, so their nodes stay.
  have hne : ∀ q ∈ ps, q ≠ p := fun q hq he => hp (he ▸ hq)
  have hheap : ∀ q, q ≠ p → (w.free p).heap q = w.heap q := fun q hq =>
    Function.update_of_ne hq _ _
  have hok : RxOk (w.free p) ps := by
    refine ⟨h.unlocked, fun q hq => ?_, ⟨?_, ?_, h.list.last⟩, fun i q hq => ?_, h.slot_inj⟩
    · by_cases hqp : q = p
      · rw [hqp]
        exact Function.update_self _ _ _
      · rw [hheap q hqp, h.fresh q hq]
    · exact h.list.chain.congr fun q hq => nextOf_update_of_ne (hne q hq)
    · exact h.list.back.congr fun q hq => preOf_update_of_ne (hne q hq)
    · obtain ⟨hqs, n, hn, hnd⟩ := h.slot i q hq
      refine ⟨hqs, n, ?_, hnd⟩
      rw [hheap q fun he => hslot i (he ▸ hq), hn]
  refine ⟨hok, ?_⟩
  have hitems : rxItems (w.free p) = rxItems w := by
    rw [hok.items_eq, h.items_eq]
    exact List.filterMap_congr fun q hq => by rw [itemAt, itemAt, hheap q (hne q hq)]
  have hslots : rxSlot (w.free p) = rxSlot w := by
    funext i
    show (w.dataItemList i).bind _ = (w.dataItemList i).bind _
    cases hq : w.dataItemList i with
    | none => rfl
    | some q =>
      show ((w.free p).heap q).map _ = (w.heap q).map _
      rw [hheap q fun he => hslot i (he ▸ hq)]
  unfold view
  rw [hitems, hslots]
  rfl

/-- A round of the loop around `link_recv`: the list is empty, or its first item is taken out,
given to `app_proto_process` and freed. -/
theorem recv_round {w : World} {ps : List Ptr} (h : RxOk w ps)
    (hone : ∀ i ∈ rxItems w, i.devId = 1) :
    (rxItems w = [] ∧ linkRecv w 1 = some (w, none)) ∨
    ∃ w' p n i items ps', rxItems w = i :: items ∧ linkRecv w 1 = some (w', some p) ∧
      w'.heap p = some n ∧ itemOf n = i ∧ RxOk (w'.free p) ps' ∧
      view (w'.free p) = (view w).recv 1 ∧ rxItems (w'.free p) = items := by
  cases ps with
  | nil =>
    refine Or.inl ⟨?_, linkRecv_none h.list.head_eq 1⟩
    rw [h.items_eq]
    rfl
  | cons p ps =>
    right
    obtain ⟨i, hi⟩ := h.item_isSome (p := p) (by simp)
    have hsplit : rxItems w = i :: ps.filterMap (itemAt w.heap) := by
      rw [h.items_eq, List.filterMap_cons, hi]
    -- All items are of device 1, so `link_recv` takes the first one.
    have hdev : i.devId = 1 := hone i (by rw [hsplit]; exact List.mem_cons_self)
    have hp : ofDev w.heap 1 p = true := by
      rw [ofDev_of_itemAt hi, hdev]
      rfl
    have hnone : ∀ q ∈ ([] : List Ptr), ofDev w.heap 1 q = false := fun _ hq =>
      absurd hq List.not_mem_nil
    have hfirst : RxOk w ([] ++ p :: ps) := h
    obtain ⟨w', hrecv, hok, hview⟩ := linkRecv_refines hfirst (by decide) hp hnone (Or.inl rfl)
    obtain ⟨w₁, hrecv₁, hw₁, hitems, _⟩ := linkRecv_found hfirst.fresh hfirst.list
      (h.unlocked .rxList) (h.unlocked .listen) (by decide) hp hnone
    obtain rfl : w' = w₁ := (Prod.mk.inj (Option.some.inj (hrecv.symm.trans hrecv₁))).1
    obtain ⟨n, hn, hni⟩ := Option.map_eq_some_iff.mp ((hitems p).trans hi)
    have hslots : w'.dataItemList = w.dataItemList := by rw [hw₁]; rfl
    obtain ⟨hfree, hfview⟩ := hok.free (p := p)
      (List.nodup_cons.mp h.list.chain.nodup).1
      fun idx hidx => (h.slot idx p (hslots ▸ hidx)).1 List.mem_cons_self
    refine ⟨w', p, n, i, _, _, hsplit, hrecv, hn, hni, hfree, hfview.trans hview, ?_⟩
    have := congrArg RxView.items (hfview.trans hview)
    rw [show rxItems (w'.free p) = (view (w'.free p)).items from rfl, this]
    show (rxItems w).eraseP _ = _
    rw [hsplit, List.eraseP_cons_of_pos (by simpa using hdev)]

/-! ### A link whose queue is never emptied -/

/-- A receiver that has kept the items that were taken out: `got` stands in front of its queue. -/
structure Keeps (ghost real : World) (got : List Item) : Prop where
  ghostOk : ∃ ps, RxOk ghost ps
  realOk : ∃ ps, RxOk real ps
  slot : rxSlot ghost = rxSlot real
  expect : ghost.pktNum = real.pktNum
  items : rxItems ghost = got ++ rxItems real

/-- A packet does the same to two receivers that differ in the front of their queues. -/
theorem rx_front {v u : RxView} {got : List Item} (hslot : v.slot = u.slot)
    (hexpect : v.expect = u.expect) (hitems : v.items = got ++ u.items) {p : ProPacketInfo}
    (hp : DataPacket p) :
    (v.rx p).slot = (u.rx p).slot ∧ (v.rx p).expect = (u.rx p).expect ∧
      (v.rx p).items = got ++ (u.rx p).items := by
  rcases hp.2 with hc | hc | hc <;> simp only [RxView.rx, hc, hslot, hexpect]
  · split <;> simp [RxView.store, hslot, hexpect, hitems]
  · split
    · exact ⟨rfl, rfl, hitems⟩
    · split
      · simp [RxView.store, hslot, hexpect, hitems]
      · exact ⟨hslot, hexpect, hitems⟩
  · split
    · exact ⟨rfl, rfl, hitems⟩
    · simp [RxView.finish, hslot, hexpect, hitems]

/-- The link with another receiver, and another receiver at the start of the call. -/
def shadow (s : LinkState) (r a : World) : LinkState := { s with receiver := r, atStart := a }

/-- The steps that do not deliver look at no receiver. -/
theorem linkStep_shadow {s s' : LinkState} {e : LinkEvent} (r a : World) (hdeliver : e ≠ .deliver)
    (hcall : ∀ data, e ≠ .call data) (h : linkStep s e = some s') :
    linkStep (shadow s r a) e = some (shadow s' r a) ∧ s'.receiver = s.receiver := by
  have hresume : ∀ c res, resume (shadow s r a) c res = shadow (resume s c res) r a ∧
      (resume s c res).receiver = s.receiver := by
    intro c res
    unfold resume
    split <;> exact ⟨rfl, rfl⟩
  cases e with
  | call data => exact absurd rfl (hcall data)
  | deliver => exact absurd rfl hdeliver
  | send =>
    obtain ⟨c, hpc, rfl⟩ := linkStep_send.mp h
    exact ⟨linkStep_send.mpr ⟨c, hpc, rfl⟩, rfl⟩
  | timeout =>
    obtain ⟨c, hpc, rfl⟩ := linkStep_timeout.mp h
    obtain ⟨hshadow, hreceiver⟩ := hresume c (waitForAnswer s.pktInfoTable0 c.pktInfo .timedOut)
    exact ⟨linkStep_timeout.mpr ⟨c, hpc, hshadow.symm⟩, hreceiver⟩
  | takeAnswer =>
    obtain ⟨f, rest, info, hpending, hline, hinfo, rfl⟩ := linkStep_takeAnswer.mp h
    exact ⟨linkStep_takeAnswer.mpr ⟨f, rest, info, hpending, hline, hinfo, rfl⟩, rfl⟩
  | signal =>
    obtain ⟨hpending, ⟨c, hpc, rfl⟩ | ⟨hpc, rfl⟩⟩ := linkStep_signal.mp h
    · exact ⟨linkStep_signal.mpr ⟨hpending, Or.inl ⟨c, hpc, rfl⟩⟩, rfl⟩
    · exact ⟨linkStep_signal.mpr ⟨hpending, Or.inr ⟨hpc, rfl⟩⟩, rfl⟩
  | wake =>
    obtain ⟨c, hpc, rfl⟩ := linkStep_wake.mp h
    obtain ⟨hshadow, hreceiver⟩ := hresume c (waitForAnswer s.pktInfoTable0 c.pktInfo .signalled)
    exact ⟨linkStep_wake.mpr ⟨c, hpc, hshadow.symm⟩, hreceiver⟩
  | loseData i =>
    obtain ⟨hlt, rfl⟩ := linkStep_loseData.mp h
    exact ⟨linkStep_loseData.mpr ⟨hlt, rfl⟩, rfl⟩
  | loseAnswer i =>
    obtain ⟨hlt, rfl⟩ := linkStep_loseAnswer.mp h
    exact ⟨linkStep_loseAnswer.mpr ⟨hlt, rfl⟩, rfl⟩

/-- What a step that is not a call leaves alone. A call that has ended stays so, and the link never
goes back to the time before the first call. -/
theorem linkStep_frame {s s' : LinkState} {e : LinkEvent} (hcall : ∀ data, e ≠ .call data)
    (h : linkStep s e = some s') :
    s'.passed = s.passed ∧ s'.item = s.item ∧ s'.atStart = s.atStart ∧
      (∀ ret, s.pc = .returned ret → s'.pc = .returned ret) ∧
      (s'.pc = .returned none → s.pc = .returned none) := by
  have hresume : ∀ c res, (resume s c res).passed = s.passed ∧ (resume s c res).item = s.item ∧
      (resume s c res).atStart = s.atStart ∧ (resume s c res).pc ≠ .returned none := by
    intro c res
    unfold resume
    split <;> exact ⟨rfl, rfl, rfl, fun he => by cases he⟩
  cases e with
  | call data => exact absurd rfl (hcall data)
  -- `send`, `timeout` and `wake` go on with a call that has not returned.
  | send =>
    obtain ⟨c, hpc, rfl⟩ := linkStep_send.mp h
    exact ⟨rfl, rfl, rfl, fun ret hr => (by cases hpc.symm.trans hr), fun he => by cases he⟩
  | timeout =>
    obtain ⟨c, hpc, rfl⟩ := linkStep_timeout.mp h
    obtain ⟨hpassed, hitem, hstart, hne⟩ :=
      hresume c (waitForAnswer s.pktInfoTable0 c.pktInfo .timedOut)
    exact ⟨hpassed, hitem, hstart, fun ret hr => (by cases hpc.symm.trans hr),
      fun he => absurd he hne⟩
  | takeAnswer =>
    obtain ⟨f, rest, info, _, _, _, rfl⟩ := linkStep_takeAnswer.mp h
    exact ⟨rfl, rfl, rfl, fun _ hr => hr, fun hr => hr⟩
  | signal =>
    obtain ⟨_, ⟨c, hpc, rfl⟩ | ⟨_, rfl⟩⟩ := linkStep_signal.mp h
    · exact ⟨rfl, rfl, rfl, fun ret hr => (by cases hpc.symm.trans hr), fun he => by cases he⟩
    · exact ⟨rfl, rfl, rfl, fun _ hr => hr, fun hr => hr⟩
  | wake =>
    obtain ⟨c, hpc, rfl⟩ := linkStep_wake.mp h
    obtain ⟨hpassed, hitem, hstart, hne⟩ :=
      hresume c (waitForAnswer s.pktInfoTable0 c.pktInfo .signalled)
    exact ⟨hpassed, hitem, hstart, fun ret hr => (by cases hpc.symm.trans hr),
      fun he => absurd he hne⟩
  | deliver =>
    obtain ⟨f, rest, w, ret, _, _, rfl⟩ := linkStep_deliver.mp h
    exact ⟨rfl, rfl, rfl, fun _ hr => hr, fun hr => hr⟩
  | loseData i =>
    obtain ⟨_, rfl⟩ := linkStep_loseData.mp h
    exact ⟨rfl, rfl, rfl, fun _ hr => hr, fun hr => hr⟩
  | loseAnswer i =>
    obtain ⟨_, rfl⟩ := linkStep_loseAnswer.mp h
    exact ⟨rfl, rfl, rfl, fun _ hr => hr, fun hr => hr⟩

variable {s s' : LinkState} {r a : World} {k : Track} {got : List Item}

/-- A receiver that has kept its items gets the next frame, too. -/
theorem deliver_shadow (h : LinkInv (shadow s r a) k) (hkeeps : Keeps r s.receiver got)
    (hstep : linkStep s .deliver = some s') :
    ∃ r', linkStep (shadow s r a) .deliver = some (shadow s' r' a) ∧ Keeps r' s'.receiver got := by
  obtain ⟨f, rest, w, ret, hline, hret, rfl⟩ := linkStep_deliver.mp hstep
  obtain ⟨t, data, htags, rfl, rfl, hwf⟩ := h.first_frame hline
  obtain ⟨ps, hreal⟩ := hkeeps.realOk
  obtain ⟨qs, hghost⟩ := hkeeps.ghostOk
  obtain ⟨hok, hview, hout⟩ := hwf.received hreal hret
  obtain ⟨r', ret', qs', hret', hok', hview', hout'⟩ :=
    dealWithIndata_refines hghost t.pkt hwf.payload hwf.fits hwf.data
  have hpacket : DataPacket (unpacked t.pkt t.cur) := hwf.data
  obtain ⟨hslot, hexpect, hitems⟩ := rx_front (v := view r) (u := view s.receiver)
    hkeeps.slot hkeeps.expect hkeeps.items hpacket
  rw [← hview, ← hview'] at hslot hexpect hitems
  refine ⟨r', linkStep_deliver.mpr ⟨_, _, r', ret', hline, hret', ?_⟩,
    ⟨⟨qs', hok'⟩, hok, hslot, hexpect, hitems⟩⟩
  -- Both receivers write the same answer.
  simp only [shadow, hout, hout', List.drop_left]

/-- A receiver that has kept its items holds an item under assembly when the real one does. -/
theorem notStale_shadow {e : LinkEvent} (hkeeps : Keeps r s.receiver got) (h : NotStale s e) :
    NotStale (shadow s r a) e := by
  cases e with
  | deliver =>
    intro f rest hline heof hslot
    refine h f rest hline heof fun hnone => ?_
    obtain ⟨ps, hok⟩ := hkeeps.ghostOk
    obtain ⟨p, hp⟩ := Option.ne_none_iff_exists'.mp hslot
    obtain ⟨_, n, hn, _⟩ := hok.slot 0 p hp
    have hempty : rxSlot s.receiver 0 = none := by simp [rxSlot, hnone]
    have hfull : rxSlot r 0 = some n.data := by
      rw [rxSlot, show r.dataItemList 0 = some p from hp]
      simp [hn]
    rw [← hkeeps.slot, hfull] at hempty
    cases hempty
  | _ => exact h

/-- A step of the link that is not a call, for a receiver that has kept its items. -/
theorem keeps_linkStep {e : LinkEvent} (hcall : ∀ data, e ≠ .call data)
    (h : LinkInv (shadow s r a) k) (hkeeps : Keeps r s.receiver got) (hok : NotStale s e)
    (hstep : linkStep s e = some s') :
    ∃ r' k', LinkInv (shadow s' r' a) k' ∧ Keeps r' s'.receiver got := by
  -- A delivery is the one step that looks at the receiver.
  by_cases hdeliver : e = .deliver
  · rw [hdeliver] at hstep hok
    obtain ⟨r', hghost, hkeeps'⟩ := deliver_shadow h hkeeps hstep
    obtain ⟨k', hinv⟩ := linkInv_step h (notStale_shadow hkeeps hok) hghost
    exact ⟨r', k', hinv, hkeeps'⟩
  · obtain ⟨hghost, hreceiver⟩ := linkStep_shadow r a hdeliver hcall hstep
    obtain ⟨k', hinv⟩ := linkInv_step h (notStale_shadow hkeeps hok) hghost
    exact ⟨r, k', hinv, hreceiver ▸ hkeeps⟩

/-! ### The items that have arrived -/

/-- At the start of the running call the receiver had the items `sub` of those passed before, which
are `front`, and all of them as long as no call has failed. -/
structure Prior (s : LinkState) (failed : Bool) (front sub : List (List Byte)) : Prop where
  start : rxItems s.atStart = sub.map (Item.mk 1)
  among : sub.Sublist front
  all : failed = false → sub = front
  passed : s.passed = front ++ [s.item] ∨ s.passed = [] ∧ front = []

/-- The items that have arrived are among those passed, in their order. As long as no call has
failed, only the item of the running call may be missing. -/
theorem arrived_items (h : LinkInv s k) {failed : Bool} {front sub : List (List Byte)}
    (hprior : Prior s failed front sub) :
    ∃ arrived, rxItems s.receiver = arrived.map (Item.mk 1) ∧ arrived.Sublist s.passed ∧
      (failed = false → arrived = s.passed ∨
        s.passed = arrived ++ [s.item] ∧ s.pc ≠ .returned (some 0)) := by
  by_cases hfin : Finished k
  · have hitems := h.finished hfin
    rcases hprior.passed with hpassed | ⟨hpassed, _⟩
    · refine ⟨sub ++ [s.item], ?_, ?_, fun hf => Or.inl ?_⟩
      · rw [hitems, hprior.start, List.map_append]
        rfl
      · rw [hpassed]
        exact hprior.among.append (List.Sublist.refl _)
      · rw [hpassed, hprior.all hf]
    · -- Nothing can arrive before something is passed.
      have hmem : s.item ∈ s.passed := (h.passed ⟨1, s.item⟩ (by rw [hitems]; simp)).2
      rw [hpassed] at hmem
      exact absurd hmem List.not_mem_nil
  · have hitems := h.unfinished hfin
    refine ⟨sub, hitems.trans hprior.start, ?_, fun hf => ?_⟩
    · rcases hprior.passed with hpassed | ⟨hpassed, hfront⟩
      · rw [hpassed]
        exact hprior.among.trans (List.sublist_append_left _ _)
      · rw [hpassed, ← hfront]
        exact hprior.among
    · rcases hprior.passed with hpassed | ⟨hpassed, hfront⟩
      · refine Or.inr ⟨by rw [hpassed, hprior.all hf], fun hpc => ?_⟩
        -- A call that has returned 0 has delivered its item.
        have hdelivered := h.delivered.returned hpc
        rw [hitems] at hdelivered
        simp at hdelivered
      · exact Or.inl (by rw [hpassed, hprior.all hf, hfront])

/-- The link when `tx_data_info` has been called with an item. -/
def called (s : LinkState) (data : List Byte) : LinkState :=
  { s with
    pc := .ready (txStart 1 data)
    stamp := s.stamp + 1
    callStart := s.stamp + 1
    item := data
    passed := s.passed ++ [data]
    atStart := s.receiver }

/-- Behind a call that returned a new one is made. -/
theorem linkStep_called {data : List Byte} {ret : Option Int} (hpc : s.pc = .returned ret)
    (hne : data ≠ []) (hlen : data.length < 2 ^ 32) :
    linkStep s (.call data) = some (called s data) :=
  linkStep_call.mpr ⟨⟨ret, hpc⟩, ⟨hne, hlen⟩, rfl⟩

/-- A call is made when the call before has returned, and has returned 0 unless a call failed. -/
structure Between (s : LinkState) (failed : Bool) : Prop where
  returned : ∃ ret, s.pc = .returned ret
  first : s.pc = .returned none → s.passed = []
  good : failed = false → s.pc = .returned none ∨ s.pc = .returned (some 0)

/-- The next call. -/
theorem prior_called (h : LinkInv (shadow s r a) k) {failed : Bool} {front sub : List (List Byte)}
    (hprior : Prior (shadow s r a) failed front sub) (hbetween : Between s failed)
    {data : List Byte} (hne : data ≠ []) (hlen : data.length < 2 ^ 32) :
    ∃ k' front' sub', LinkInv (shadow (called s data) r r) k' ∧
      Prior (shadow (called s data) r r) failed front' sub' := by
  obtain ⟨ret, hpc⟩ := hbetween.returned
  have hcall : linkStep (shadow s r a) (.call data) = some (shadow (called s data) r r) :=
    linkStep_called (s := shadow s r a) hpc hne hlen
  obtain ⟨k', hinv⟩ := linkInv_call h hcall
  obtain ⟨arrived, hitems, hsub, hall⟩ := arrived_items h hprior
  refine ⟨k', s.passed, arrived, hinv, hitems, hsub, fun hf => ?_, Or.inl rfl⟩
  rcases hbetween.good hf with hnone | hzero
  · have hnil : s.passed = [] := hbetween.first hnone
    rw [show (shadow s r a).passed = s.passed from rfl, hnil] at hsub
    rw [List.eq_nil_of_sublist_nil hsub, hnil]
  · rcases hall hf with heq | ⟨_, hbusy⟩
    · exact heq
    · exact absurd hzero hbusy

end LearnGit.Proofs.Uart
