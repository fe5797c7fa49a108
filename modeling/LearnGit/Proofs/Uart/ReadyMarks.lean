import LearnGit.Lib.Machine
import LearnGit.Proofs.Uart.ReceiveRefine

/-!
# `LearnGit.Proofs.Uart.ReadyMarks`: the marks that announce the queue

`deal_with_eof_packet` adds an item of device 1 to `list_rx`, counts it in `dev_cnt_r[1]` and
sets bit 1 of `mark_r`. `link_recv(1)` does the opposite. The machine `rxQueue` is any
interleaving of the packets of device 1 with `link_recv(1)`.

`dev_cnt_r` is an array of `unsigned char` and the list has no bound. `rxQueue_marks_iff`: the
marks follow the queue in every state of a run exactly when no `eof` packet finishes an item
while 255 items are queued. `backlog_breaks_marks` is the run that does.
-/

set_option autoImplicit false

namespace LearnGit.Proofs.Uart

open LearnGit.Lib
open LearnGit.Uart.Link

/-- A packet of device 1, or a call `link_recv(1)`. -/
inductive RxOp where
  | packet (p : ProPacketInfo)
  | recv

/-- Any interleaving of data packets of device 1 and of `link_recv(1)` from the start-up state.
The state `none` is a call that does not return. -/
def rxQueue : Machine (Option World) RxOp where
  init := some World.init
  step
    | none, _ => none
    | some w, .packet p => if DataPacket p then some ((rxDataInfo w Alloc.ok p).map (·.1)) else none
    | some w, .recv => some ((linkRecv w 1).map (·.1))

/-- The number of items of device 1 in a queue. -/
def ones (items : List Item) : Nat := items.countP fun i => i.devId = 1

/-- Bit 1 of the mark is set exactly when an item of device 1 is queued, and the counter of
device 1 is the number of such items. -/
structure Marks (w : World) : Prop where
  bit : w.markR &&& ((1 : UInt16) <<< 1) ≠ 0 ↔ ∃ i ∈ rxItems w, i.devId = 1
  cnt : (w.devCntR 1).toNat = ones (rxItems w)

/-- The state is defined and its marks follow the queue. -/
def MarksFollow (s : Option World) : Prop := ∃ w, s = some w ∧ Marks w

/-- An `eof` packet that finishes an item finds fewer than 255 items of device 1. -/
def BacklogOk : Option World → RxOp → Prop
  | none, _ => False
  | some _, .recv => True
  | some w, .packet p =>
    p.cmd = .eof → w.dataItemList 0 ≠ none → ones (rxItems w) < 255

/-- What the steps keep besides: the pointer-level invariant, and only device 1 is queued. -/
def OneDevice (s : Option World) : Prop :=
  ∀ w, s = some w → (∃ ps, RxOk w ps) ∧ ∀ i ∈ rxItems w, i.devId = 1

/-! ### The marks of a queue of device 1 -/

/-- A mark that is set is read as set. -/
theorem or_and_bit (m b : UInt16) : (m ||| b) &&& b = b := by
  apply UInt16.toBitVec_inj.mp
  ext i hi
  simp only [UInt16.toBitVec_and, UInt16.toBitVec_or, BitVec.getElem_and, BitVec.getElem_or]
  grind

/-- A mark that is taken away is read as clear. -/
theorem and_not_and_bit (m b : UInt16) : (m &&& ~~~b) &&& b = 0 := by
  apply UInt16.toBitVec_inj.mp
  ext i hi
  simp

/-- Where every item is of device 1 they all count. -/
theorem ones_eq_length {items : List Item} (h : ∀ i ∈ items, i.devId = 1) :
    ones items = items.length := by
  rw [ones, List.countP_eq_length]
  simpa using h

/-- On a queue of device 1 the marks are two equations. -/
theorem marks_iff {w : World} (h : ∀ i ∈ rxItems w, i.devId = 1) :
    Marks w ↔ (w.markR &&& ((1 : UInt16) <<< 1) ≠ 0 ↔ rxItems w ≠ []) ∧
      (w.devCntR 1).toNat = (rxItems w).length := by
  have hex : (∃ i ∈ rxItems w, i.devId = 1) ↔ rxItems w ≠ [] := by
    constructor
    · rintro ⟨i, hi, _⟩ hnil
      rw [hnil] at hi
      exact absurd hi List.not_mem_nil
    · intro hne
      obtain ⟨i, hi⟩ := List.exists_mem_of_ne_nil _ hne
      exact ⟨i, hi, h i hi⟩
  rw [← ones_eq_length h, ← hex]
  exact ⟨fun hm => ⟨hm.bit, hm.cnt⟩, fun hm => ⟨hm.1, hm.2⟩⟩

/-- Finishing an item keeps the marks exactly while the counter has room. -/
theorem marks_finish_iff {w w' : World} {d : List Byte} (hm : Marks w)
    (hone : ∀ i ∈ rxItems w, i.devId = 1) (hview : view w' = (view w).finish 1 d) :
    (Marks w' ↔ ones (rxItems w) < 255) ∧ ∀ i ∈ rxItems w', i.devId = 1 := by
  have hitems : rxItems w' = rxItems w ++ [⟨1, d⟩] := congrArg RxView.items hview
  have hcnt : w'.devCntR 1 = w.devCntR 1 + 1 := by
    have := congrFun (congrArg RxView.cnt hview) 1
    simpa [view, RxView.finish] using this
  have hmark : w'.markR = w.markR ||| ((1 : UInt16) <<< 1) := congrArg RxView.mark hview
  have hone' : ∀ i ∈ rxItems w', i.devId = 1 := by
    intro i hi
    rw [hitems, List.mem_append, List.mem_singleton] at hi
    rcases hi with hi | rfl
    · exact hone i hi
    · rfl
  refine ⟨?_, hone'⟩
  have hold := hm.cnt
  rw [ones_eq_length hone] at hold ⊢
  rw [marks_iff hone', hmark, or_and_bit, hitems, hcnt, UInt8.toNat_add, hold, List.length_append]
  -- The bit is set in any case. The counter wraps at 256.
  have hbit : (1 : UInt16) <<< 1 ≠ 0 := by decide
  have h1 : (1 : UInt8).toNat = 1 := rfl
  simp only [hbit, ne_eq, not_false_eq_true, List.append_eq_nil_iff, List.cons_ne_nil, and_false,
    true_and, List.length_singleton, h1]
  omega

/-- Taking out the oldest item keeps the marks. -/
theorem marks_recv {w w' : World} (hm : Marks w) (hone : ∀ i ∈ rxItems w, i.devId = 1)
    (hne : rxItems w ≠ []) (hview : view w' = (view w).recv 1) :
    Marks w' ∧ ∀ i ∈ rxItems w', i.devId = 1 := by
  obtain ⟨i, items, hsplit⟩ := List.exists_cons_of_ne_nil hne
  -- Every item is of device 1, so the first one is taken.
  have hitems : rxItems w' = items := by
    have := congrArg RxView.items hview
    rw [show (view w').items = rxItems w' from rfl] at this
    rw [this]
    show (rxItems w).eraseP _ = _
    rw [hsplit, List.eraseP_cons_of_pos (by simpa using hone i (by simp [hsplit]))]
  have hcnt : w'.devCntR 1 = w.devCntR 1 - 1 := by
    have := congrFun (congrArg RxView.cnt hview) 1
    simpa [view, RxView.recv] using this
  have hmark : w'.markR = if w.devCntR 1 - 1 = 0 then w.markR &&& ~~~((1 : UInt16) <<< 1)
      else w.markR := congrArg RxView.mark hview
  have hone' : ∀ j ∈ rxItems w', j.devId = 1 := by
    intro j hj
    rw [hitems] at hj
    exact hone j (by simp [hsplit, hj])
  refine ⟨?_, hone'⟩
  obtain ⟨hbit, hold⟩ := (marks_iff hone).mp hm
  rw [hsplit, List.length_cons] at hold
  have hle : (1 : UInt8) ≤ w.devCntR 1 := by
    rw [UInt8.le_iff_toNat_le, hold]
    exact Nat.le_add_left 1 _
  have hnew : (w.devCntR 1 - 1).toNat = items.length := by
    rw [UInt8.toNat_sub_of_le _ _ hle, hold]
    rfl
  rw [marks_iff hone', hitems, hcnt, hnew, hmark]
  refine ⟨?_, rfl⟩
  -- The bit is cleared with the last item and stays set before.
  have hzero : w.devCntR 1 - 1 = 0 ↔ items = [] := by
    rw [← UInt8.toNat_inj, hnew, ← List.length_eq_zero_iff]
    rfl
  by_cases hlast : items = []
  · rw [if_pos (hzero.mpr hlast), and_not_and_bit, hlast]
    simp
  · rw [if_neg fun h0 => hlast (hzero.mp h0), hbit]
    exact iff_of_true hne hlast

/-! ### Runs -/

/-- Whether the marks are right depends on the queue, the counts and the marks. -/
theorem marks_congr {w w' : World} (hitems : rxItems w' = rxItems w)
    (hcnt : w'.devCntR = w.devCntR) (hmark : w'.markR = w.markR) (hm : Marks w) : Marks w' := by
  constructor
  · rw [hmark, hitems]
    exact hm.bit
  · rw [hcnt, hitems]
    exact hm.cnt

/-- One packet keeps the marks exactly when it meets `BacklogOk`. -/
theorem marks_packet_iff {w : World} {ps : List Ptr} (hok : RxOk w ps) (hm : Marks w)
    (hone : ∀ i ∈ rxItems w, i.devId = 1) {p : ProPacketInfo} (hp : DataPacket p) :
    (MarksFollow ((rxDataInfo w Alloc.ok p).map (·.1)) ↔ BacklogOk (some w) (.packet p)) ∧
      OneDevice ((rxDataInfo w Alloc.ok p).map (·.1)) := by
  obtain ⟨w', ret, ps', hstep, hok', hview, _⟩ := rxDataInfo_refines hok hp
  have hslot : w.dataItemList 0 = none ↔ (view w).slot 0 = none := by
    show _ ↔ rxSlot w 0 = none
    cases hitem : w.dataItemList 0 with
    | none => simp [rxSlot, hitem]
    | some q =>
      obtain ⟨_, n, hn, _⟩ := hok.slot 0 q hitem
      simp [rxSlot, hitem, hn]
  have hfollow : MarksFollow ((rxDataInfo w Alloc.ok p).map (·.1)) ↔ Marks w' := by
    rw [hstep]
    constructor
    · rintro ⟨u, hu, hmu⟩
      obtain rfl : w' = u := Option.some.inj hu
      exact hmu
    · intro hmu
      exact ⟨w', rfl, hmu⟩
  have hone' : (∀ i ∈ rxItems w', i.devId = 1) → OneDevice ((rxDataInfo w Alloc.ok p).map (·.1)) := by
    intro h u hu
    rw [hstep] at hu
    rw [← Option.some.inj hu]
    exact ⟨⟨ps', hok'⟩, h⟩
  rw [hfollow]
  -- Only an `eof` packet that finds an item under assembly touches the queue or the marks.
  rcases rx_finish_or_keep (view w) hp with ⟨hcmd, d, hd, hfin⟩ | ⟨hcmd, hitems, hcnt, hmark⟩
  · rw [hfin] at hview
    obtain ⟨hiff, hdev⟩ := marks_finish_iff hm hone hview
    have hfilled : w.dataItemList 0 ≠ none := by
      rw [ne_eq, hslot, hd]
      exact Option.some_ne_none _
    refine ⟨hiff.trans ?_, hone' hdev⟩
    exact ⟨fun hlt _ _ => hlt, fun h => h hcmd hfilled⟩
  · rw [← hview] at hitems hcnt hmark
    have hkeep : Marks w' := marks_congr hitems hcnt hmark hm
    refine ⟨iff_of_true hkeep fun he hfilled => ?_, hone' ?_⟩
    · exact absurd (hslot.mpr (hcmd he)) hfilled
    · rw [show rxItems w' = rxItems w from hitems]
      exact hone

/-- `link_recv(1)` on a queue of device 1 keeps the marks. -/
theorem marks_linkRecv {w : World} {ps : List Ptr} (hok : RxOk w ps) (hm : Marks w)
    (hone : ∀ i ∈ rxItems w, i.devId = 1) :
    MarksFollow ((linkRecv w 1).map (·.1)) ∧ OneDevice ((linkRecv w 1).map (·.1)) := by
  rcases linkRecv_one hok hone with hrecv | ⟨w', p, ps', hne, hrecv, hok', hview⟩
  · rw [hrecv]
    refine ⟨⟨w, rfl, hm⟩, fun u hu => ?_⟩
    rw [← Option.some.inj hu]
    exact ⟨⟨ps, hok⟩, hone⟩
  · obtain ⟨hm', hone'⟩ := marks_recv hm hone hne hview
    rw [hrecv]
    refine ⟨⟨w', rfl, hm'⟩, fun u hu => ?_⟩
    rw [← Option.some.inj hu]
    exact ⟨⟨ps', hok'⟩, hone'⟩

/-- The step for a data packet is `rx_data_info`. -/
theorem rxQueue_step_packet (w : World) {p : ProPacketInfo} (hp : DataPacket p) :
    rxQueue.step (some w) (.packet p) = some ((rxDataInfo w Alloc.ok p).map (·.1)) :=
  if_pos hp

/-- Behind a step the marks are right exactly where the backlog fits its counter. -/
theorem marks_step_iff (s : Option World) (op : RxOp) (s' : Option World) (hone : OneDevice s)
    (hm : MarksFollow s) (hstep : rxQueue.step s op = some s') :
    (MarksFollow s' ↔ BacklogOk s op) ∧ (BacklogOk s op → OneDevice s') := by
  obtain ⟨w, rfl, hw⟩ := hm
  obtain ⟨⟨ps, hok⟩, hdev⟩ := hone w rfl
  cases op with
  | packet p =>
    by_cases hp : DataPacket p
    · rw [rxQueue_step_packet w hp] at hstep
      rw [← Option.some.inj hstep]
      obtain ⟨hiff, hinv⟩ := marks_packet_iff hok hw hdev hp
      exact ⟨hiff, fun _ => hinv⟩
    · have hnone : rxQueue.step (some w) (.packet p) = none := if_neg hp
      rw [hnone] at hstep
      exact nomatch hstep
  | recv =>
    rw [← Option.some.inj hstep]
    obtain ⟨hfollow, hinv⟩ := marks_linkRecv hok hw hdev
    exact ⟨iff_of_true hfollow trivial, fun _ => hinv⟩

/-- At the start the marks are right. -/
theorem marksFollow_init : MarksFollow rxQueue.init :=
  ⟨World.init, rfl, ⟨by simp [rxItems, walk, World.init], rfl⟩⟩

/-- At the start every item is of device 1. -/
theorem oneDevice_init : OneDevice rxQueue.init := by
  intro w hw
  rw [← Option.some.inj hw]
  exact ⟨⟨[], rxOk_init⟩, fun _ hi => absurd hi List.not_mem_nil⟩

/-- The ready marks. Take any interleaving of packets of device 1 and of `link_recv(1)`. Bit 1
of `mark_r` and `dev_cnt_r[1]` follow the queue in every state of the run, if and only if no
`eof` packet of the run finishes an item while 255 items are queued. -/
theorem rxQueue_marks_iff (ops : List RxOp) (s : Option World)
    (hrun : rxQueue.exec ops = some s) :
    rxQueue.Always MarksFollow ops ↔ rxQueue.Run BacklogOk ops s :=
  Machine.always_iff_run marksFollow_init oneDevice_init marks_step_iff hrun

/-- The first segment of an item, and its end. -/
def sofPacket : ProPacketInfo := { devId := 1, cmd := .sof, num := 1, data := [7] }
def eofPacket : ProPacketInfo := { devId := 1, cmd := .eof, num := 2, data := [TTY_ANSWER_DATA] }

/-- The theorem applied to one item that is received and taken out. -/
theorem rxQueue_marks_iff_one_item :
    ∃ s, rxQueue.exec [.packet sofPacket, .packet eofPacket, .recv] = some s ∧
      (rxQueue.Always MarksFollow [.packet sofPacket, .packet eofPacket, .recv] ↔
        rxQueue.Run BacklogOk [.packet sofPacket, .packet eofPacket, .recv] s) :=
  ⟨_, rfl, rxQueue_marks_iff _ _ rfl⟩

/-- After `n` items that nobody takes out, the queue has `n` items. -/
theorem exec_backlog (n : Nat) :
    ∃ w ps, rxQueue.exec (List.replicate n [.packet sofPacket, .packet eofPacket]).flatten
        = some (some w) ∧ RxOk w ps ∧ ones (rxItems w) = n := by
  induction n with
  | zero => exact ⟨World.init, [], rfl, rxOk_init, rfl⟩
  | succ n ih =>
    obtain ⟨w, ps, hrun, hok, hlen⟩ := ih
    have hsof : DataPacket sofPacket := by decide
    have heof : DataPacket eofPacket := by decide
    -- One more item is a `sof` and an `eof` packet on top of the run so far.
    obtain ⟨w₁, _, ps₁, hstep₁, hok₁, hview₁, _⟩ := rxDataInfo_refines hok hsof
    obtain ⟨w₂, _, ps₂, hstep₂, hok₂, hview₂, _⟩ := rxDataInfo_refines hok₁ heof
    refine ⟨w₂, ps₂, ?_, hok₂, ?_⟩
    · have hs₁ : rxQueue.step (some w) (.packet sofPacket) = some (some w₁) := by
        rw [rxQueue_step_packet w hsof, hstep₁]
        rfl
      have hs₂ : rxQueue.step (some w₁) (.packet eofPacket) = some (some w₂) := by
        rw [rxQueue_step_packet w₁ heof, hstep₂]
        rfl
      rw [Machine.exec] at hrun ⊢
      rw [List.replicate_succ', List.flatten_append, List.flatten_singleton,
        Machine.execFrom_append, hrun, Option.bind_some, Machine.execFrom_cons, hs₁,
        Option.bind_some, Machine.execFrom_cons, hs₂]
      rfl
    · have hitems : rxItems w₂ = rxItems w ++ [⟨1, [7]⟩] := by
        have := congrArg RxView.items (hview₂.trans (congrArg (RxView.rx · eofPacket) hview₁))
        simpa [RxView.rx, RxView.store, RxView.finish, sofPacket, eofPacket, view] using this
      rw [hitems, ones, List.countP_append]
      rw [ones] at hlen
      simp [hlen]

/-- With 256 items in the queue the counter cannot be right. -/
theorem backlog_breaks_marks :
    ¬ ∀ ops s, rxQueue.exec ops = some s → rxQueue.Always MarksFollow ops := by
  intro hclaim
  obtain ⟨w, ps, hrun, _, hlen⟩ := exec_backlog 256
  obtain ⟨u, hu, hm⟩ := hclaim _ _ hrun _ List.prefix_rfl _ hrun
  have hcnt := hm.cnt
  rw [← Option.some.inj hu, hlen] at hcnt
  -- The counter would have to be 256, and it is a byte.
  have hlt := (w.devCntR 1).toNat_lt
  omega

end LearnGit.Proofs.Uart
