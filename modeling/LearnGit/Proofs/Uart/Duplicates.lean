import LearnGit.Proofs.Uart.ReceiveRefine

/-!
# `LearnGit.Proofs.Uart.Duplicates`: repeated packets

The sender repeats a frame until it sees an acknowledgement, so `rx_data_info` meets the same
packet several times in a row. `rxRun_repeats` proves that the repetitions change neither
the queue nor the item under assembly.

The two runs do not stay equal. A repeated `eof` finds the slot empty and sets the expected
number to 1, while a single `eof` leaves it. The number is read only while an item is under
assembly, and `sof` sets it. `SameRx` is the relation that both runs keep: equal queue, equal
slot, and equal expected number whenever the slot is filled. `sameRx_rx` is its step lemma
for two different states, and `rx_rx` for the repetition.
-/

set_option autoImplicit false

namespace LearnGit.Proofs.Uart

open LearnGit.Uart.Link

/-- `rx_data_info` on a sequence of packets, with every allocation succeeding. -/
def rxRun (w : World) (packets : List ProPacketInfo) : Option World :=
  packets.foldlM (fun w p => (rxDataInfo w Alloc.ok p).map (·.1)) w

/-- The item under assembly for a device, with its id. -/
def partialItem (w : World) (idx : Nat) : Option Item :=
  (w.dataItemList idx).bind (itemAt w.heap)

/-- `Repeats ps qs`: `qs` is `ps` with each packet repeated in place, one or more times. -/
inductive Repeats {α : Type} : List α → List α → Prop where
  | nil : Repeats [] []
  | cons (p : α) (n : Nat) {ps qs : List α} :
      Repeats ps qs → Repeats (p :: ps) (List.replicate (n + 1) p ++ qs)

/-- An item that is being received is the one of its slot. -/
theorem RxOk.partialItem_eq {w : World} {ps : List Ptr} (h : RxOk w ps) (idx : Nat) :
    partialItem w idx = (rxSlot w idx).map fun d => ⟨idx + 1, d⟩ := by
  unfold partialItem rxSlot
  cases hp : w.dataItemList idx with
  | none => rfl
  | some p =>
    obtain ⟨_, n, hn, hdev⟩ := h.slot idx p hp
    simp [itemAt, itemOf, hn, hdev]

/-- A run of data packets returns and does what the view says. -/
theorem rxRun_refines (packets : List ProPacketInfo) :
    ∀ (w : World) (ps : List Ptr), RxOk w ps → (∀ p ∈ packets, DataPacket p) →
      ∃ w' ps', rxRun w packets = some w' ∧ RxOk w' ps' ∧
        view w' = packets.foldl RxView.rx (view w) := by
  induction packets with
  | nil => intro w ps h _; exact ⟨w, ps, rfl, h, rfl⟩
  | cons p packets ih =>
    intro w ps h hall
    obtain ⟨w₁, ret, ps₁, hstep, hok, hview, -⟩ := rxDataInfo_refines h (hall p (by simp))
    obtain ⟨w', ps', hrun, hok', hview'⟩ := ih w₁ ps₁ hok fun q hq => hall q (by simp [hq])
    refine ⟨w', ps', ?_, hok', ?_⟩
    · unfold rxRun at hrun ⊢
      rw [List.foldlM_cons, hstep]
      exact hrun
    · rw [hview', List.foldl_cons, hview]

/-! ### The relation between the two runs -/

/-- Equal queue, equal item under assembly of device 1, and equal expected number while there
is such an item. -/
structure SameRx (v v' : RxView) : Prop where
  items : v.items = v'.items
  slot : v.slot 0 = v'.slot 0
  expect : v.slot 0 ≠ none → v.expect 0 = v'.expect 0

/-- A view is the same as itself. -/
theorem SameRx.refl (v : RxView) : SameRx v v := ⟨rfl, rfl, fun _ => rfl⟩

/-- Views that are the same as one are the same. -/
theorem SameRx.trans {v₁ v₂ v₃ : RxView} (h : SameRx v₁ v₂) (h' : SameRx v₂ v₃) :
    SameRx v₁ v₃ where
  items := h.items.trans h'.items
  slot := h.slot.trans h'.slot
  expect hne := (h.expect hne).trans (h'.expect (h.slot ▸ hne))

/-- A packet keeps the relation. -/
theorem sameRx_rx {v v' : RxView} (h : SameRx v v') {p : ProPacketInfo} (hp : DataPacket p) :
    SameRx (v.rx p) (v'.rx p) := by
  obtain ⟨hdev, hcmd⟩ := hp
  rcases hcmd with hc | hc | hc <;> simp only [RxView.rx, hc, hdev]
  · -- `sof` overwrites slot and expected number in both.
    by_cases hnum : p.num.val = 1
    · simp only [hnum, if_true]
      exact ⟨h.items, by simp [RxView.store], fun _ => by simp [RxView.store]⟩
    · simp only [hnum, if_false]
      exact ⟨h.items, by simp [RxView.store], fun _ => by simp [RxView.store]⟩
  · -- `tx` reads the expected number only with a filled slot.
    have hslot := h.slot
    cases hv : v.slot 0 with
    | none =>
      rw [hv] at hslot
      simp only [Fin.val_one, Nat.sub_self, hv, ← hslot]
      exact ⟨h.items, by simp [hv, ← hslot], fun hne => absurd hv hne⟩
    | some d =>
      have hexp : v.expect 0 = v'.expect 0 := h.expect (by simp [hv])
      rw [hv] at hslot
      simp only [Fin.val_one, Nat.sub_self, hv, ← hslot, hexp]
      by_cases hnum : v'.expect 0 = p.num.val
      · simp only [hnum, if_true]
        exact ⟨h.items, by simp [RxView.store], fun _ => by simp [RxView.store]⟩
      · simp only [hnum, if_false]
        exact h
  · -- `eof` moves equal items to equal queues.
    have hslot := h.slot
    cases hv : v.slot 0 with
    | none =>
      rw [hv] at hslot
      simp only [Fin.val_one, Nat.sub_self, hv, ← hslot]
      exact ⟨h.items, by simp [hv, ← hslot], fun hne => absurd hv hne⟩
    | some d =>
      rw [hv] at hslot
      simp only [Fin.val_one, Nat.sub_self, hv, ← hslot]
      exact ⟨by simp [RxView.finish, h.items], by simp [RxView.finish],
        fun hne => absurd (by simp [RxView.finish]) hne⟩

/-- A packet that comes again at once changes nothing. -/
theorem rx_rx (v : RxView) {p : ProPacketInfo} (hp : DataPacket p) :
    SameRx ((v.rx p).rx p) (v.rx p) := by
  obtain ⟨hdev, hcmd⟩ := hp
  rcases hcmd with hc | hc | hc <;> simp only [RxView.rx, hc, hdev]
  · by_cases hnum : p.num.val = 1
    · simp only [hnum, if_true]
      exact ⟨rfl, by simp [RxView.store], fun _ => by simp [RxView.store]⟩
    · simp only [hnum, if_false]
      exact ⟨rfl, by simp [RxView.store], fun _ => by simp [RxView.store]⟩
  · cases hv : v.slot 0 with
    | none =>
      simp only [Fin.val_one, Nat.sub_self, hv]
      exact ⟨rfl, rfl, fun hne => absurd hv hne⟩
    | some d =>
      simp only [Fin.val_one, Nat.sub_self, hv]
      by_cases hnum : v.expect 0 = p.num.val
      · -- The packet was taken: its number is not the expected one any more.
        have hnext : (v.store 0 (d ++ p.data) (nextPktNum p.num.val)).expect 0 ≠ p.num.val := by
          simpa [RxView.store] using nextPktNum_ne p.num.val
        simp only [hnum, if_true, RxView.store, Function.update_self] at hnext ⊢
        rw [if_neg hnext]
        exact SameRx.refl _
      · simp only [hnum, if_false, hv]
        exact SameRx.refl v
  · cases hv : v.slot 0 with
    | none =>
      simp only [Fin.val_one, Nat.sub_self, hv]
      exact ⟨rfl, rfl, fun hne => absurd hv hne⟩
    | some d =>
      simp only [Fin.val_one, Nat.sub_self, hv, RxView.finish, Function.update_self]
      exact ⟨rfl, rfl, fun hne => absurd (by simp) hne⟩

/-- Any number of repetitions of one packet. -/
theorem foldl_replicate_same {v v' : RxView} (h : SameRx v v') {p : ProPacketInfo}
    (hp : DataPacket p) (n : Nat) :
    SameRx ((List.replicate (n + 1) p).foldl RxView.rx v) (v'.rx p) := by
  induction n generalizing v v' with
  | zero => exact sameRx_rx h hp
  | succ n ih =>
    rw [List.replicate_succ, List.foldl_cons]
    -- The first copy leads to `v'.rx p`, from where the others change nothing.
    exact (ih (sameRx_rx h hp)).trans (rx_rx v' hp)

/-- Two runs over a sequence and over its repetitions keep the relation. The induction is on
the sequence without the repetitions. -/
theorem foldl_repeats {ps qs : List ProPacketInfo} (h : Repeats ps qs) :
    ∀ v v', SameRx v v' → (∀ p ∈ ps, DataPacket p) →
      SameRx (qs.foldl RxView.rx v) (ps.foldl RxView.rx v') := by
  induction h with
  | nil => intro v v' hv _; exact hv
  | cons p n _ ih =>
    intro v v' hv hall
    rw [List.foldl_append, List.foldl_cons]
    exact ih _ _ (foldl_replicate_same hv (hall p (by simp)) n)
      fun q hq => hall q (by simp [hq])

/-- A packet of the repeated sequence is one of the sequence. -/
theorem Repeats.mem {α : Type} {ps qs : List α} (h : Repeats ps qs) {q : α} (hq : q ∈ qs) :
    q ∈ ps := by
  induction h with
  | nil => exact hq
  | cons p n _ ih =>
    rcases List.mem_append.mp hq with hq | hq
    · simp [List.eq_of_mem_replicate hq]
    · simp [ih hq]

/-- Duplicate suppression. Take any sequence of data packets of device 1, and the same sequence
with each packet repeated in place any number of times. From the start-up state both runs of
`rx_data_info` return, with the same items in `list_rx` and the same partly assembled item. -/
theorem rxRun_repeats (ps qs : List ProPacketInfo) (hdata : ∀ p ∈ ps, DataPacket p)
    (hrep : Repeats ps qs) :
    ∃ w w', rxRun World.init ps = some w ∧ rxRun World.init qs = some w' ∧
      rxItems w' = rxItems w ∧ partialItem w' 0 = partialItem w 0 := by
  obtain ⟨w, _, hrun, hok, hview⟩ := rxRun_refines ps World.init [] rxOk_init hdata
  obtain ⟨w', _, hrun', hok', hview'⟩ := rxRun_refines qs World.init [] rxOk_init
    fun q hq => hdata q (hrep.mem hq)
  have hsame := foldl_repeats hrep (view World.init) (view World.init) (SameRx.refl _) hdata
  rw [← hview, ← hview'] at hsame
  refine ⟨w, w', hrun, hrun', hsame.items, ?_⟩
  rw [hok.partialItem_eq, hok'.partialItem_eq]
  exact congrArg _ hsame.slot

/-- The theorem applied to an item of one segment whose three packets come twice or once. -/
theorem rxRun_repeats_one_segment :
    let sof : ProPacketInfo := { devId := 1, cmd := .sof, num := 1, data := [7, 8] }
    let eof : ProPacketInfo := { devId := 1, cmd := .eof, num := 2, data := [0xEE] }
    (∀ p ∈ [sof, eof], DataPacket p) ∧ Repeats [sof, eof] [sof, sof, eof, eof, eof] ∧
      ∃ w w', rxRun World.init [sof, eof] = some w ∧
        rxRun World.init [sof, sof, eof, eof, eof] = some w' ∧
        rxItems w' = rxItems w ∧ partialItem w' 0 = partialItem w 0 := by
  intro sof eof
  have hdata : ∀ p ∈ [sof, eof], DataPacket p := by decide
  have hrep : Repeats [sof, eof] [sof, sof, eof, eof, eof] :=
    Repeats.cons sof 1 (Repeats.cons eof 2 Repeats.nil)
  exact ⟨hdata, hrep, rxRun_repeats [sof, eof] [sof, sof, eof, eof, eof] hdata hrep⟩

end LearnGit.Proofs.Uart
