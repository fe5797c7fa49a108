import LearnGit.Proofs.Uart.RoundTrip
import LearnGit.Uart.Link.StopAndWait

/-!
# `LearnGit.Proofs.Uart.StopAndWait`: what is delivered, and when

`link_delivers`: in every run of the link in which no stale frame does harm (`NotStale`), a call
of `tx_data_info` that returns 0 has appended exactly its item to `list_rx`, and every item in
`list_rx` is one that was passed. `stale_ack_delivers_wrong_item` is a run in which an
acknowledgement of an earlier call is accepted, and the call returns 0 for an item that never
arrives.

The numbers of the packets do not tell the calls apart: every item starts with the number 1.
The invariant therefore speaks about tags. A `Tag` is a packet with the place it has in its
item. The tags of the answers, of the last packet the receiver has seen, of the frames on the
line and of the packet being sent stand in one order (`Le`). Every frame on the line is a
`sof`, a repetition of what the receiver has seen last, or the packet after it (`Ready`), so
the receiver is always in step with the tags (`rxAt_step`).
-/

set_option autoImplicit false

namespace LearnGit.Proofs.Uart

open LearnGit.Lib
open LearnGit.Uart.Link

/-! ### Statement -/

/-- A frame that carries an `eof` packet. -/
def IsEof (bytes : List Byte) : Prop := ProtocolCmd.ofByte (bytes.getD 1 0 >>> 2) = .eof

instance (bytes : List Byte) : Decidable (IsEof bytes) := inferInstanceAs (Decidable (_ = _))

/-- The steps that no stale frame makes go wrong. An acknowledgement that is accepted answers a
packet of the running call. An `eof` packet of an earlier call does not reach a receiver that
holds an item. -/
def NotStale (s : LinkState) : LinkEvent → Prop
  | .wake => ∀ c, s.pc = .woken c →
      waitForAnswer s.pktInfoTable0 c.pktInfo .signalled = .ok → s.callStart ≤ s.tableStamp
  | .deliver => ∀ f rest, s.dataLine = f :: rest → IsEof f.bytes →
      s.receiver.dataItemList 0 ≠ none → s.callStart ≤ f.stamp
  | _ => True

instance (s : LinkState) : (e : LinkEvent) → Decidable (NotStale s e)
  | .wake =>
    match hpc : s.pc with
    | .woken c =>
      decidable_of_iff
        (waitForAnswer s.pktInfoTable0 c.pktInfo .signalled = .ok → s.callStart ≤ s.tableStamp)
        ⟨fun h _ hc => SenderPc.woken.inj (hpc.symm.trans hc) ▸ h, fun h => h c hpc⟩
    | .returned _ | .ready _ | .waiting _ =>
      .isTrue fun _ hc => nomatch hpc.symm.trans hc
  | .deliver =>
    match hline : s.dataLine with
    | f :: rest =>
      decidable_of_iff
        (IsEof f.bytes → s.receiver.dataItemList 0 ≠ none → s.callStart ≤ f.stamp)
        ⟨fun h _ _ hl => (List.cons.inj (hline.symm.trans hl)).1 ▸ h, fun h => h f rest hline⟩
    | [] => .isTrue fun _ _ hl => nomatch hline.symm.trans hl
  | .call _ | .send | .timeout | .takeAnswer | .signal | .loseData _ | .loseAnswer _ =>
    .isTrue trivial

/-- A call that has returned 0 has appended exactly its item, and every item was passed. -/
structure Delivered (s : LinkState) : Prop where
  returned : s.pc = .returned (some 0) →
    rxItems s.receiver = rxItems s.atStart ++ [⟨1, s.item⟩]
  passed : ∀ i ∈ rxItems s.receiver, i.devId = 1 ∧ i.data ∈ s.passed

/-! ### Tags -/

/-- A packet with its place: its stamp, the stamp of the first packet of its call, the item of
the call, the bytes of the item before the packet and in it. -/
structure Tag where
  stamp : Nat
  start : Nat
  item : List Byte
  before : List Byte
  cur : List Byte
  pkt : ProPacketInfo

namespace Tag

/-- The frame of the packet, and the acknowledgement the receiver gives it. -/
def flight (t : Tag) : Flight := ⟨proPackData t.pkt, t.stamp⟩
def ack (t : Tag) : Flight := ⟨ackFrame t.pkt, t.stamp⟩

end Tag

/-- A tag whose packet is what the sender sends at its place. -/
structure Wf (t : Tag) : Prop where
  start : t.start ≤ t.stamp
  data : DataPacket t.pkt
  payload : t.pkt.data = stuff t.cur
  fits : t.pkt.data.length ≤ PRO_MAX_DATADOMAIN_SIZE
  sof : t.pkt.cmd = .sof → t.stamp = t.start ∧ t.before = [] ∧ t.pkt.num.val = 1
  eof : t.pkt.cmd = .eof → t.before = t.item

/-- `b` is not before `a`. Equal stamps are equal tags, and a tag that is not before the call
of `b` belongs to it. -/
structure Le (a b : Tag) : Prop where
  stamp : a.stamp ≤ b.stamp
  eq : a.stamp = b.stamp → a = b
  call : b.start ≤ a.stamp → a.start = b.start ∧ a.item = b.item

/-- A tag is no later than itself. -/
theorem Le.refl (a : Tag) : Le a a := ⟨Nat.le_refl _, fun _ => rfl, fun _ => ⟨rfl, rfl⟩⟩

/-- `t` is the packet after `u` in the same call. -/
structure Follows (u t : Tag) : Prop where
  stamp : t.stamp = u.stamp + 1
  start : t.start = u.start
  item : t.item = u.item
  before : t.before = u.before ++ u.cur
  num : t.pkt.num.val = nextPktNum u.pkt.num.val
  more : u.pkt.cmd ≠ .eof
  rest : t.pkt.cmd = .tx ∨ t.pkt.cmd = .eof

/-- What can come after `seen`: a `sof`, the same packet again, or the one after it. -/
def Ready (seen : Option Tag) (t : Tag) : Prop :=
  t.pkt.cmd = .sof ∨ ∃ u, seen = some u ∧ (t = u ∨ Follows u t)

/-- Of what may come after `u`, everything not before `t` may come after `t`. -/
theorem Ready.after {seen : Option Tag} {t t' : Tag} (h : Ready seen t')
    (hle : ∀ u, seen = some u → Le u t) (hlt : Le t t') : Ready (some t) t' := by
  rcases h with hsof | ⟨u, hu, heq | hfol⟩
  · exact Or.inl hsof
  · -- A repetition of `u`: nothing lies between, so `t` is `u`.
    have hut := hle u hu
    have hstamp : u.stamp = t.stamp := by
      have := hut.stamp
      have := hlt.stamp
      rw [heq] at this
      omega
    refine Or.inr ⟨t, rfl, Or.inl ?_⟩
    rw [heq, hut.eq hstamp]
  · have hut := hle u hu
    refine Or.inr ⟨t, rfl, ?_⟩
    rcases Nat.eq_or_lt_of_le hut.stamp with heq | hgt
    · exact Or.inr (hut.eq heq ▸ hfol)
    · have hstamp : t.stamp = t'.stamp := by
        have := hlt.stamp
        have := hfol.stamp
        omega
      exact Or.inl (hlt.eq hstamp).symm

/-! ### The receiver -/

/-- The receiver after the packet `seen`: without an item before the first packet and after an
`eof`, else with the bytes up to this packet, and expecting the next number. -/
def RxAt (seen : Option Tag) (v : RxView) : Prop :=
  match seen with
  | none => v.slot 0 = none
  | some u =>
    if u.pkt.cmd = .eof then v.slot 0 = none
    else v.slot 0 = some (u.before ++ u.cur) ∧ v.expect 0 = nextPktNum u.pkt.num.val

/-- Behind a packet that is not the last one, the slot has the bytes so far. -/
theorem rxAt_of_not_eof {u : Tag} {v : RxView} (hu : u.pkt.cmd ≠ .eof) :
    RxAt (some u) v ↔
      v.slot 0 = some (u.before ++ u.cur) ∧ v.expect 0 = nextPktNum u.pkt.num.val := by
  show (if _ then _ else _) ↔ _
  rw [if_neg hu]

/-- Behind the last packet the slot is free. -/
theorem rxAt_of_eof {u : Tag} {v : RxView} (hu : u.pkt.cmd = .eof) :
    RxAt (some u) v ↔ v.slot 0 = none := by
  show (if _ then _ else _) ↔ _
  rw [if_pos hu]

/-- One packet keeps the receiver in step. Its queue grows only by an `eof` packet that is
not a repetition, and then by the whole item. -/
theorem rxAt_step {seen : Option Tag} {v : RxView} {t : Tag} (hat : RxAt seen v) (hwf : Wf t)
    (hready : Ready seen t) :
    RxAt (some t) (v.rx (unpacked t.pkt t.cur)) ∧
      ((v.rx (unpacked t.pkt t.cur)).items = v.items ∧ (t.pkt.cmd = .eof → seen = some t) ∨
        t.pkt.cmd = .eof ∧ v.slot 0 ≠ none ∧ (∃ u, seen = some u ∧ Follows u t) ∧
          (v.rx (unpacked t.pkt t.cur)).items = v.items ++ [⟨1, t.item⟩]) := by
  have hdev : (unpacked t.pkt t.cur).devId = 1 := hwf.data.1
  have hcmd : (unpacked t.pkt t.cur).cmd = t.pkt.cmd := rfl
  have hnum : (unpacked t.pkt t.cur).num = t.pkt.num := rfl
  have hdata : (unpacked t.pkt t.cur).data = t.cur := rfl
  generalize unpacked t.pkt t.cur = p at hdev hcmd hnum hdata
  rcases hwf.data.2 with hc | hc | hc
  · -- `sof`: whatever was there is replaced.
    obtain ⟨_, hbefore, hone⟩ := hwf.sof hc
    have hrx : v.rx p = v.store 0 t.cur 2 := by
      simp only [RxView.rx, hcmd, hc, hdev, hnum, hone, hdata, Fin.val_one, Nat.sub_self, if_true]
    refine ⟨?_, Or.inl ⟨by rw [hrx]; rfl, fun he => ?_⟩⟩
    · rw [rxAt_of_not_eof (by rw [hc]; decide), hrx, hbefore, hone]
      simp [RxView.store, nextPktNum, MAX_PACKET_NUM]
    · rw [hc] at he
      exact absurd he (by decide)
  · -- `tx`: a repetition has the wrong number, the next packet the right one.
    have hne : t.pkt.cmd ≠ .eof := by rw [hc]; decide
    have hnot : t.pkt.cmd ≠ .sof := by rw [hc]; decide
    obtain ⟨u, rfl, hut⟩ := hready.resolve_left hnot
    rw [rxAt_of_not_eof hne]
    have hitems : ∀ d n, (v.store 0 d n).items = v.items := fun _ _ => rfl
    rcases hut with rfl | hfol
    · obtain ⟨hslot, hexp⟩ := (rxAt_of_not_eof hne).mp hat
      have hrx : v.rx p = v := by
        simp only [RxView.rx, hcmd, hc, hdev, hnum, Fin.val_one, Nat.sub_self, hslot, hexp,
          if_neg (nextPktNum_ne t.pkt.num.val)]
      rw [hrx]
      exact ⟨⟨hslot, hexp⟩, Or.inl ⟨rfl, fun he => absurd he hne⟩⟩
    · obtain ⟨hslot, hexp⟩ := (rxAt_of_not_eof hfol.more).mp hat
      have hrx : v.rx p = v.store 0 (u.before ++ u.cur ++ t.cur) (nextPktNum t.pkt.num.val) := by
        simp only [RxView.rx, hcmd, hc, hdev, hnum, hdata, Fin.val_one, Nat.sub_self, hslot, hexp,
          ← hfol.num, if_true]
      rw [hrx, hfol.before]
      exact ⟨⟨by simp [RxView.store], by simp [RxView.store]⟩,
        Or.inl ⟨rfl, fun he => absurd he hne⟩⟩
  · -- `eof`: a repetition finds no item.
    have hnot : t.pkt.cmd ≠ .sof := by rw [hc]; decide
    obtain ⟨u, rfl, hut⟩ := hready.resolve_left hnot
    rw [rxAt_of_eof hc]
    rcases hut with rfl | hfol
    · have hslot := (rxAt_of_eof hc).mp hat
      have hrx : v.rx p = { v with expect := Function.update v.expect 0 1 } := by
        simp only [RxView.rx, hcmd, hc, hdev, Fin.val_one, Nat.sub_self, hslot]
      rw [hrx]
      exact ⟨hslot, Or.inl ⟨rfl, fun _ => rfl⟩⟩
    · obtain ⟨hslot, _⟩ := (rxAt_of_not_eof hfol.more).mp hat
      have hrx : v.rx p = v.finish 1 (u.before ++ u.cur) := by
        simp only [RxView.rx, hcmd, hc, hdev, Fin.val_one, Nat.sub_self, hslot]
      rw [hrx, ← hwf.eof hc, hfol.before]
      refine ⟨by simp [RxView.finish], Or.inr ⟨hc, ?_, ⟨u, rfl, hfol⟩, rfl⟩⟩
      rw [hslot]
      exact Option.some_ne_none _

/-! ### The sender -/

/-- `data_len` is the length of the rest, or negative for good. -/
def LenOk (c : TxCall) : Prop := c.dataLen = c.pdata.length ∨ c.dataLen < 0

/-- The call is at the packet of the tag. -/
structure TxAt (c : TxCall) (t : Tag) : Prop where
  pkt : c.pktInfo = t.pkt
  last : c.last = true ↔ t.pkt.cmd = .eof
  rest : c.last = false →
    t.item = t.before ++ t.cur ++ c.pdata ∧ LenOk c ∧ c.packetNum = t.pkt.num.val

/-- The next packet is the `eof` packet, or it takes `k` bytes of the rest. -/
theorem txLoop_cases {c : TxCall} (hlen : LenOk c) :
    (c.pdata = [] ∧ c.dataLen = 0 ∧ txLoop c = txLast c) ∨
    ∃ k, (stuff (c.pdata.take k)).length ≤ PRO_MAX_DATADOMAIN_SIZE ∧ LenOk (txLoop c) ∧
      (txLoop c).pktInfo = { c.pktInfo with
        data := stuff (c.pdata.take k), num := Fin.ofNat 4 (nextPktNum c.packetNum) } ∧
      (txLoop c).pdata = c.pdata.drop k ∧ (txLoop c).packetNum = nextPktNum c.packetNum ∧
      (txLoop c).last = false := by
  rcases hlen with hlen | hneg
  · by_cases hnil : c.pdata = []
    · have hzero : c.dataLen = 0 := by rw [hlen, hnil]; rfl
      exact Or.inl ⟨hnil, hzero, txLoop_last hzero⟩
    · obtain ⟨k, hseg, _, _, hloop⟩ := txLoop_segment hlen hnil
      refine Or.inr ⟨k, hseg.2, ?_⟩
      rw [hloop]
      exact ⟨Or.inl rfl, rfl, rfl, rfl, rfl⟩
  -- From 2^31 bytes on the segments are empty and never come to an end.
  · have hloop : txLoop c = txSegment c := by rw [txLoop, if_pos (by omega)]
    refine Or.inr ⟨0, by simp, ?_⟩
    rw [hloop, txSegment, feedDataInpacket_of_nonpos c.pktInfo c.pdata c.dataLen (by omega)]
    exact ⟨Or.inr (by show c.dataLen - (0 : Nat) < 0; omega), rfl, rfl, rfl, rfl⟩

/-- After the acknowledgement of a segment the call is at the packet that follows. -/
theorem txAt_next {c : TxCall} {t : Tag} (h : TxAt c t) (hwf : Wf t) (hlast : c.last = false) :
    ∃ t', Wf t' ∧ Follows t t' ∧ TxAt (txLoop (afterAck c)) t' := by
  obtain ⟨hitem, hlen, hnum⟩ := h.rest hlast
  have hneof : t.pkt.cmd ≠ .eof := fun he => by
    rw [h.last.mpr he] at hlast
    exact Bool.noConfusion hlast
  -- `cmd` is `tx` from the second packet on.
  have hcmd : (afterAck c).pktInfo.cmd = .tx := by
    show (if c.pktInfo.cmd = .sof then ProtocolCmd.tx else c.pktInfo.cmd) = .tx
    rw [h.pkt]
    rcases hwf.data.2 with hc | hc | hc
    · rw [hc]; rfl
    · rw [hc]; rfl
    · exact absurd hc hneof
  have hdev : (afterAck c).pktInfo.devId = 1 := by
    show c.pktInfo.devId = 1
    rw [h.pkt]
    exact hwf.data.1
  have hrange : t.pkt.num.val ≤ 3 := Nat.le_of_lt_succ t.pkt.num.isLt
  have hval : (Fin.ofNat 4 (nextPktNum (afterAck c).packetNum)).val
      = nextPktNum t.pkt.num.val := by
    rw [show (afterAck c).packetNum = t.pkt.num.val from hnum]
    exact nextPktNum_val hrange
  have hlen' : LenOk (afterAck c) := hlen
  have hstart : t.start ≤ t.stamp + 1 := Nat.le_succ_of_le hwf.start
  rcases txLoop_cases hlen' with ⟨hnil, _, hloop⟩ | ⟨k, hfits, hlenok, hpkt, hpdata, hpn, hl⟩
  · -- Nothing is left: the bytes so far are the item.
    refine ⟨⟨t.stamp + 1, t.start, t.item, t.before ++ t.cur, [TTY_ANSWER_DATA],
      (txLast (afterAck c)).pktInfo⟩, ?_, ?_, ?_⟩
    · refine ⟨hstart, ⟨hdev, Or.inr (Or.inr rfl)⟩, rfl, ?_, ?_, fun _ => ?_⟩
      · show [TTY_ANSWER_DATA].length ≤ _
        simp [PRO_MAX_DATADOMAIN_SIZE]
      · intro he
        exact absurd he (show ProtocolCmd.eof ≠ .sof by decide)
      · show t.before ++ t.cur = t.item
        rw [hitem, show c.pdata = [] from hnil, List.append_nil]
    · exact ⟨rfl, rfl, rfl, rfl, hval, hneof, Or.inr rfl⟩
    · rw [hloop]
      exact ⟨rfl, iff_of_true rfl rfl, fun he => Bool.noConfusion he⟩
  · refine ⟨⟨t.stamp + 1, t.start, t.item, t.before ++ t.cur, c.pdata.take k,
      (txLoop (afterAck c)).pktInfo⟩, ?_, ?_, ?_⟩
    · refine ⟨hstart, ⟨?_, ?_⟩, ?_, ?_, ?_, ?_⟩ <;> rw [hpkt]
      · exact hdev
      · exact Or.inr (Or.inl hcmd)
      · rfl
      · exact hfits
      · intro he
        exact absurd (hcmd.symm.trans he) (by decide)
      · intro he
        exact absurd (hcmd.symm.trans he) (by decide)
    · refine ⟨rfl, rfl, rfl, rfl, ?_, hneof, ?_⟩ <;> rw [hpkt]
      · exact hval
      · exact Or.inl hcmd
    · refine ⟨rfl, ?_, fun _ => ⟨?_, hlenok, ?_⟩⟩
      · rw [hl, hpkt]
        refine iff_of_false Bool.false_ne_true fun he => ?_
        exact absurd (hcmd.symm.trans he) (by decide)
      · rw [hpdata, hitem]
        show t.before ++ t.cur ++ c.pdata = t.before ++ t.cur ++ c.pdata.take k ++ c.pdata.drop k
        rw [List.append_assoc (t.before ++ t.cur), List.take_append_drop]
      · rw [hpn, hpkt]
        exact hval.symm ▸ congrArg nextPktNum hnum

/-- A call at its first packet, with `k` bytes in it. -/
theorem txAt_sof {c : TxCall} {x : List Byte} {k : Nat} (hlen : LenOk c)
    (hpkt : c.pktInfo = { devId := 1, cmd := .sof, num := 1, data := stuff (x.take k) })
    (hfits : (stuff (x.take k)).length ≤ PRO_MAX_DATADOMAIN_SIZE) (hpdata : c.pdata = x.drop k)
    (hnum : c.packetNum = 1) (hlast : c.last = false) (n : Nat) :
    ∃ t, Wf t ∧ t.stamp = n ∧ t.start = n ∧ t.item = x ∧ t.pkt.cmd = .sof ∧ TxAt c t := by
  refine ⟨⟨n, n, x, [], x.take k, c.pktInfo⟩, ?_, rfl, rfl, rfl, ?_, ?_⟩
  · refine ⟨Nat.le_refl n, ⟨?_, ?_⟩, ?_, ?_, fun _ => ⟨rfl, rfl, ?_⟩, ?_⟩ <;> rw [hpkt]
    · exact Or.inl rfl
    · exact hfits
    · rfl
    · exact fun he => nomatch he
  · show c.pktInfo.cmd = .sof
    rw [hpkt]
  · refine ⟨rfl, ?_, fun _ => ⟨?_, hlen, ?_⟩⟩
    · rw [hlast, hpkt]
      exact iff_of_false (fun he => nomatch he) fun he => nomatch he
    · rw [hpdata]
      show x = [] ++ x.take k ++ x.drop k
      rw [List.nil_append, List.take_append_drop]
    · rw [hnum, hpkt]
      rfl

/-- A call begins with a `sof` packet. -/
theorem txAt_start {x : List Byte} (hne : x ≠ []) (hlen : x.length < 2 ^ 32) (n : Nat) :
    ∃ t, Wf t ∧ t.stamp = n ∧ t.start = n ∧ t.item = x ∧ t.pkt.cmd = .sof ∧
      TxAt (txStart 1 x) t := by
  obtain ⟨hsmall, hlarge⟩ := txInit_dataLen x hlen
  have hok : LenOk (txInit 1 x) := by
    rcases Nat.lt_or_ge x.length (2 ^ 31) with hlt | hge
    · exact Or.inl (hsmall hlt)
    · exact Or.inr (hlarge hge)
  have hpkt₀ : (txInit 1 x).pktInfo = { devId := 1, cmd := .sof, num := 0, data := [] } := by
    rw [txInit]
  have hpdata₀ : (txInit 1 x).pdata = x := by rw [txInit]
  have hpn₀ : (txInit 1 x).packetNum = 0 := by rw [txInit]
  have hone : nextPktNum 0 = 1 := rfl
  rcases txLoop_cases hok with ⟨hnil, _⟩ | ⟨k, hfits, hlenok, hpkt, hpdata, hpn, hl⟩
  · exact absurd (hpdata₀.symm.trans hnil) hne
  · rw [hpkt₀, hpn₀, hpdata₀, hone] at hpkt
    rw [hpdata₀] at hfits hpdata
    rw [hpn₀] at hpn
    rw [txStart]
    exact txAt_sof hlenok hpkt hfits hpdata hpn hl n

/-! ### The tags of a state -/

/-- The tags behind a state: of the answer in `pkt_info_table[0]`, of the answers on the line,
of the packet the receiver has seen last, of the frames on the line, and of the packet being
sent. -/
structure Track where
  tab : Option Tag
  acks : List Tag
  seen : Option Tag
  data : List Tag
  cur : Tag

namespace Track

/-- The packets the receiver has answered. -/
def heard (k : Track) : List Tag := k.tab.toList ++ k.acks ++ k.seen.toList

/-- All tags, from the oldest to the newest. -/
def all (k : Track) : List Tag := k.heard ++ k.data ++ [k.cur]

end Track

/-- What holds of the tags of every state. -/
structure TrackOk (k : Track) : Prop where
  order : k.all.Pairwise Le
  wf : ∀ t ∈ k.all, Wf t
  silent : k.seen = none → k.tab = none ∧ k.acks = []
  ready : ∀ t ∈ k.data ++ [k.cur], Ready k.seen t
  heard : ∀ a ∈ k.heard, Ready (some a) k.cur

namespace TrackOk

variable {k : Track}

/-- No tag on the way is later than the current one. -/
theorem le_cur (h : TrackOk k) {t : Tag} (ht : t ∈ k.heard ++ k.data) : Le t k.cur :=
  (List.pairwise_append.mp h.order).2.2 t ht k.cur (by simp)

/-- The current tag is one of a call. -/
theorem wf_cur (h : TrackOk k) : Wf k.cur := h.wf _ (by simp [Track.all])

/-- What the receiver has seen is not newer than what it will see next. -/
theorem seen_le (h : TrackOk k) {u t : Tag} {data : List Tag} (hu : k.seen = some u)
    (hdata : k.data = t :: data) : Le u t := by
  have horder := h.order
  rw [Track.all, Track.heard, hdata, hu] at horder
  have hpart := (List.pairwise_append.mp horder).1
  exact (List.pairwise_append.mp hpart).2.2 u (by simp) t (by simp)

/-- Frames and answers may be lost. -/
theorem lose (h : TrackOk k) {data acks : List Tag} (hdata : data.Sublist k.data)
    (hacks : acks.Sublist k.acks) : TrackOk { k with data := data, acks := acks } := by
  have hheard : ({ k with data := data, acks := acks } : Track).heard.Sublist k.heard :=
    ((List.Sublist.refl k.tab.toList).append hacks).append (List.Sublist.refl _)
  have hall : ({ k with data := data, acks := acks } : Track).all.Sublist k.all :=
    (hheard.append hdata).append (List.Sublist.refl _)
  refine ⟨h.order.sublist hall, fun t ht => h.wf t (hall.subset ht), fun hs => ?_,
    fun t ht => h.ready t ?_, fun a ha => h.heard a (hheard.subset ha)⟩
  · obtain ⟨htab, hnil⟩ := h.silent hs
    refine ⟨htab, ?_⟩
    rw [hnil] at hacks
    exact List.eq_nil_of_sublist_nil hacks
  · exact (hdata.append (List.Sublist.refl _)).subset ht

/-- The next answer is taken. -/
theorem answer (h : TrackOk k) {a : Tag} {acks : List Tag} (hacks : k.acks = a :: acks) :
    TrackOk { k with tab := some a, acks := acks } := by
  have hheard : ({ k with tab := some a, acks := acks } : Track).heard.Sublist k.heard := by
    show (a :: acks ++ k.seen.toList).Sublist (k.tab.toList ++ k.acks ++ k.seen.toList)
    rw [hacks]
    exact (List.sublist_append_right _ _).append (List.Sublist.refl _)
  have hall : ({ k with tab := some a, acks := acks } : Track).all.Sublist k.all :=
    (hheard.append (List.Sublist.refl _)).append (List.Sublist.refl _)
  refine ⟨h.order.sublist hall, fun t ht => h.wf t (hall.subset ht), fun hs => ?_, h.ready,
    fun a ha => h.heard a (hheard.subset ha)⟩
  obtain ⟨_, hnil⟩ := h.silent hs
  rw [hnil] at hacks
  exact nomatch hacks

end TrackOk

/-- A list in order stays in order when one of its elements is repeated in place. -/
theorem pairwise_repeat {l l' : List Tag} {t : Tag} (h : (l ++ t :: l').Pairwise Le) :
    (l ++ t :: t :: l').Pairwise Le := by
  rw [List.pairwise_append] at h ⊢
  obtain ⟨hl, htl, hcross⟩ := h
  refine ⟨hl, ?_, fun a ha b hb => ?_⟩
  · rw [List.pairwise_cons] at htl ⊢
    refine ⟨fun b hb => ?_, List.pairwise_cons.mpr htl⟩
    rcases List.mem_cons.mp hb with rfl | hb
    · exact Le.refl _
    · exact htl.1 b hb
  · refine hcross a ha b ?_
    simp only [List.mem_cons] at hb ⊢
    tauto

/-- A list in order stays in order when its last element is replaced by a newer one. -/
theorem pairwise_replace {l : List Tag} {t t' : Tag} (h : (l ++ [t]).Pairwise Le)
    (hle : ∀ a, Le a t → Le a t') : (l ++ [t']).Pairwise Le := by
  rw [List.pairwise_append] at h ⊢
  refine ⟨h.1, List.pairwise_singleton _ _, fun a ha b hb => ?_⟩
  rw [List.mem_singleton.mp hb]
  exact hle a (h.2.2 a ha t (by simp))

namespace TrackOk

variable {k : Track}

/-- The packet is written once more. -/
theorem send (h : TrackOk k) : TrackOk { k with data := k.data ++ [k.cur] } := by
  have hall : ({ k with data := k.data ++ [k.cur] } : Track).all
      = (k.heard ++ k.data) ++ k.cur :: k.cur :: [] := by
    show k.heard ++ (k.data ++ [k.cur]) ++ [k.cur] = _
    simp
  refine ⟨?_, fun t ht => h.wf t ?_, h.silent, fun t ht => h.ready t ?_, h.heard⟩
  · rw [hall]
    exact pairwise_repeat h.order
  · rw [hall] at ht
    simp only [Track.all, List.mem_append, List.mem_cons] at ht ⊢
    tauto
  · simp only [List.mem_append, List.mem_cons] at ht ⊢
    tauto

/-- The first frame on the line is received and answered. -/
theorem deliver (h : TrackOk k) {t : Tag} {data : List Tag} (hdata : k.data = t :: data) :
    TrackOk { k with seen := some t, data := data, acks := k.acks ++ [t] } := by
  have hready := h.ready
  rw [hdata] at hready
  have hafter : ∀ t' ∈ data ++ [k.cur], Le t t' := by
    intro t' ht'
    have horder := h.order
    rw [Track.all, hdata, List.append_assoc] at horder
    have hcons := (List.pairwise_append.mp horder).2.1
    rw [List.cons_append] at hcons
    exact (List.pairwise_cons.mp hcons).1 t' ht'
  have hreadyAfter : ∀ t' ∈ data ++ [k.cur], Ready (some t) t' := fun t' ht' =>
    (hready t' (by simp only [List.mem_append, List.mem_cons] at ht' ⊢; tauto)).after
      (fun _ hu => h.seen_le hu hdata) (hafter t' ht')
  -- The tag of the frame moves from the line to what is seen, and once more to the answers.
  have hsub : (k.tab.toList ++ k.acks ++ t :: (data ++ [k.cur])).Sublist k.all := by
    rw [Track.all, Track.heard, hdata]
    simp only [List.append_assoc, List.cons_append]
    exact (List.Sublist.refl _).append ((List.Sublist.refl _).append (List.sublist_append_right _ _))
  have hall : ({ k with seen := some t, data := data, acks := k.acks ++ [t] } : Track).all
      = (k.tab.toList ++ k.acks) ++ t :: t :: (data ++ [k.cur]) := by
    show k.tab.toList ++ (k.acks ++ [t]) ++ [t] ++ data ++ [k.cur] = _
    simp
  refine ⟨?_, fun t' ht' => h.wf t' (hsub.subset ?_), (fun hs => nomatch hs), hreadyAfter,
    fun a ha => ?_⟩
  · rw [hall]
    exact pairwise_repeat (h.order.sublist hsub)
  · rw [hall] at ht'
    simp only [List.mem_append, List.mem_cons] at ht' ⊢
    tauto
  · have ha' : a ∈ k.heard ∨ a = t := by
      have hmem : a ∈ k.tab.toList ++ (k.acks ++ [t]) ++ [t] := ha
      simp only [Track.heard, List.mem_append, List.mem_singleton] at hmem ⊢
      tauto
    rcases ha' with ha' | rfl
    · exact h.heard a ha'
    · exact hreadyAfter k.cur (by simp)

/-- With the packet being sent acknowledged, everything answered is this packet. -/
theorem heard_eq (h : TrackOk k) (htab : k.tab = some k.cur) : ∀ a ∈ k.heard, a = k.cur := by
  intro a ha
  have hle : Le a k.cur := h.le_cur (List.mem_append_left _ ha)
  -- The newest tag stands first in the order, so all behind it are equal to it.
  have horder : (k.cur :: (k.acks ++ k.seen.toList)).Pairwise Le := by
    have := (List.pairwise_append.mp (List.pairwise_append.mp h.order).1).1
    rw [Track.heard, htab] at this
    exact this
  rw [Track.heard, htab] at ha
  rcases List.mem_cons.mp (show a ∈ k.cur :: (k.acks ++ k.seen.toList) from ha) with rfl | ha
  · rfl
  · have hge := (List.pairwise_cons.mp horder).1 a ha
    exact (hge.eq (Nat.le_antisymm hge.stamp hle.stamp)).symm

/-- Where the current packet has been answered, it has been received. -/
theorem seen_eq (h : TrackOk k) (htab : k.tab = some k.cur) : k.seen = some k.cur := by
  cases hs : k.seen with
  | none =>
    rw [(h.silent hs).1] at htab
    exact nomatch htab
  | some u =>
    rw [h.heard_eq htab u (by simp [Track.heard, hs])]

/-- The sender goes on to a newer packet. -/
theorem replace (h : TrackOk k) {t : Tag} (hwf : Wf t) (hle : ∀ a, Le a k.cur → Le a t)
    (hready : Ready k.seen t) (hheard : ∀ a ∈ k.heard, Ready (some a) t) :
    TrackOk { k with cur := t } := by
  refine ⟨pairwise_replace h.order hle, fun t' ht' => ?_, h.silent, fun t' ht' => ?_, hheard⟩
  · rcases List.mem_append.mp ht' with ht' | ht'
    · exact h.wf t' (by rw [Track.all]; exact List.mem_append_left _ ht')
    · rw [List.mem_singleton.mp ht']
      exact hwf
  · rcases List.mem_append.mp ht' with ht' | ht'
    · exact h.ready t' (List.mem_append_left _ ht')
    · rw [List.mem_singleton.mp ht']
      exact hready

/-- The sender goes on to the next packet of the item. -/
theorem next (h : TrackOk k) (htab : k.tab = some k.cur) {t : Tag} (hwf : Wf t)
    (hfol : Follows k.cur t) : TrackOk { k with cur := t } := by
  have hle : ∀ a, Le a k.cur → Le a t := by
    intro a ha
    have hlt : a.stamp < t.stamp := by
      have := ha.stamp
      have := hfol.stamp
      omega
    refine ⟨Nat.le_of_lt hlt, fun he => absurd he (Nat.ne_of_lt hlt), fun hs => ?_⟩
    rw [hfol.start] at hs
    rw [hfol.start, hfol.item]
    exact ha.call hs
  refine h.replace hwf hle (Or.inr ⟨k.cur, h.seen_eq htab, Or.inr hfol⟩) fun a ha => ?_
  rw [h.heard_eq htab a ha]
  exact Or.inr ⟨k.cur, rfl, Or.inr hfol⟩

/-- The sender goes on to the next item. -/
theorem call (h : TrackOk k) {t : Tag} (hwf : Wf t) (hstamp : t.stamp = k.cur.stamp + 1)
    (hstart : t.start = k.cur.stamp + 1) (hsof : t.pkt.cmd = .sof) :
    TrackOk { k with cur := t } := by
  have hle : ∀ a, Le a k.cur → Le a t := by
    intro a ha
    have := ha.stamp
    exact ⟨by omega, fun he => by omega, fun hs => by omega⟩
  exact h.replace hwf hle (Or.inl hsof) fun _ _ => Or.inl hsof

/-- An accepted answer to a packet of the running call answers the packet being sent. -/
theorem tab_eq_cur (h : TrackOk k) {a : Tag} (htab : k.tab = some a)
    (hcall : k.cur.start ≤ a.stamp) (hnum : a.pkt.num = k.cur.pkt.num) : a = k.cur := by
  have hmem : a ∈ k.heard := by simp [Track.heard, htab]
  have hle : Le a k.cur := h.le_cur (List.mem_append_left _ hmem)
  rcases h.heard a hmem with hsof | ⟨u, hu, heq | hfol⟩
  -- The packet being sent is the first of its call, and the answer is not older than that.
  · have hfirst := (h.wf_cur.sof hsof).1
    exact hle.eq (Nat.le_antisymm hle.stamp (hfirst ▸ hcall))
  · rw [heq, Option.some.inj hu]
  · -- The packet before has another number.
    rw [← Option.some.inj hu] at hfol
    have := hfol.num
    rw [← hnum] at this
    exact absurd this.symm (nextPktNum_ne _)

/-- Once the receiver has seen the `eof` packet of the running call, nothing newer can come. -/
theorem seen_eof_eq (h : TrackOk k) {u : Tag} (hu : k.seen = some u) (heof : u.pkt.cmd = .eof)
    (hstart : u.start = k.cur.start) : u = k.cur := by
  have hmem : u ∈ k.heard := by simp [Track.heard, hu]
  have hle : Le u k.cur := h.le_cur (List.mem_append_left _ hmem)
  have hwfu : Wf u := h.wf u (by simp [Track.all, hmem])
  rcases h.heard u hmem with hsof | ⟨v, hv, heq | hfol⟩
  · have hfirst := (h.wf_cur.sof hsof).1
    have := hwfu.start
    exact hle.eq (Nat.le_antisymm hle.stamp (by omega))
  · rw [heq, Option.some.inj hv]
  · rw [← Option.some.inj hv] at hfol
    exact absurd heof hfol.more

end TrackOk

/-! ### The invariant of the link -/

/-- The receiver has seen the `eof` packet of the running call. -/
def Finished (k : Track) : Prop :=
  ∃ u, k.seen = some u ∧ u.pkt.cmd = .eof ∧ u.start = k.cur.start

/-- What the place of `thread_tx` says about the tags. -/
def SenderOk (s : LinkState) (k : Track) : Prop :=
  match s.pc with
  | .returned ret => ret = some 0 → k.seen = some k.cur ∧ k.cur.pkt.cmd = .eof
  | .ready c | .waiting c => TxAt c k.cur ∧ k.cur.item ∈ s.passed
  | .woken c => TxAt c k.cur ∧ k.cur.item ∈ s.passed ∧ k.tab ≠ none

/-- The invariant of the link, with the tags of the state. -/
structure LinkInv (s : LinkState) (k : Track) : Prop where
  rx : ∃ ps, RxOk s.receiver ps
  data : s.dataLine = k.data.map Tag.flight
  acks : s.ackLine = k.acks.map Tag.ack
  table : ∀ a, k.tab = some a →
    s.tableStamp = a.stamp ∧ s.pktInfoTable0.cmd = .ack ∧ s.pktInfoTable0.num = a.pkt.num
  track : TrackOk k
  view : RxAt k.seen (view s.receiver)
  stamp : k.cur.stamp = s.stamp
  start : k.cur.start = s.callStart
  item : k.cur.item = s.item
  finished : Finished k → rxItems s.receiver = rxItems s.atStart ++ [⟨1, s.item⟩]
  unfinished : ¬ Finished k → rxItems s.receiver = rxItems s.atStart
  sent : ∀ t ∈ k.data, t.item ∈ s.passed
  passed : ∀ i ∈ rxItems s.receiver, i.devId = 1 ∧ i.data ∈ s.passed
  sender : SenderOk s k
  pending : s.pending = true → k.tab ≠ none

/-- The invariant gives what is to be shown. -/
theorem LinkInv.delivered {s : LinkState} {k : Track} (h : LinkInv s k) : Delivered s := by
  refine ⟨fun hpc => h.finished ?_, h.passed⟩
  have hsender := h.sender
  rw [SenderOk, hpc] at hsender
  obtain ⟨hseen, heof⟩ := hsender rfl
  exact ⟨k.cur, hseen, heof, rfl⟩

/-- The tag that stands for no packet, before the first call. -/
def noTag : Tag :=
  ⟨0, 0, [], [], [], { devId := 1, cmd := .sof, num := 1, data := [] }⟩

/-- Before the first call. -/
theorem linkInv_init : LinkInv LinkState.init ⟨none, [], none, [], noTag⟩ := by
  have hwf : Wf noTag := by
    refine ⟨Nat.le_refl 0, ⟨rfl, Or.inl rfl⟩, rfl, Nat.zero_le _, fun _ => ⟨rfl, rfl, rfl⟩, ?_⟩
    exact fun he => nomatch he
  have hnot : ¬ Finished ⟨none, [], none, [], noTag⟩ := fun ⟨_, hu, _⟩ => nomatch hu
  refine ⟨⟨[], rxOk_init⟩, rfl, rfl, fun a ha => (nomatch ha), ⟨List.pairwise_singleton _ _, ?_,
    fun _ => ⟨rfl, rfl⟩, ?_, ?_⟩, rfl, rfl, rfl, rfl, fun hf => absurd hf hnot, fun _ => rfl, ?_, ?_,
    ?_, ?_⟩
  · intro t ht
    rw [List.mem_singleton.mp (show t ∈ [noTag] from ht)]
    exact hwf
  · intro t ht
    rw [List.mem_singleton.mp (show t ∈ [noTag] from ht)]
    exact Or.inl rfl
  · exact fun a ha => absurd ha List.not_mem_nil
  · exact fun t ht => absurd ht List.not_mem_nil
  · exact fun i hi => absurd hi List.not_mem_nil
  · exact fun hret => nomatch hret
  · exact fun hp => nomatch hp

/-! ### The steps -/

/-- An acknowledgement, as the sender's `thread_rx` takes it. -/
theorem takeAnswer_proPackData {q : ProPacketInfo} {x : List Byte} (hcmd : q.cmd = .ack)
    (hdata : q.data = stuff x) (hlen : q.data.length ≤ 250) :
    takeAnswer (proPackData q) = some (unpacked q x) := by
  have hcrc := crcMatches_proPackData q (unpacked q x) hlen rfl
  have hunpack : proUnpackPkg (proPackData q) ((proPackData q).getD 2 0).toNat
      = some (unpacked q x) := proUnpackPkg_proPackData q x hdata hlen
  unfold takeAnswer
  rw [hunpack, Option.bind_eq_bind, Option.bind_some, if_pos hcrc,
    show (unpacked q x).cmd = .ack from hcmd]

/-- The answer to a packet has its number. -/
theorem takeAnswer_ackFrame (p : ProPacketInfo) :
    ∃ info, takeAnswer (ackFrame p) = some info ∧ info.cmd = .ack ∧ info.num = p.num := by
  have hlen : (answerPacket p.devId p.num .ack).data.length ≤ 250 := by
    simp [answerPacket, TTY_ANSWER_DATA_LEN]
  exact ⟨_, takeAnswer_proPackData (q := answerPacket p.devId p.num .ack)
    (x := List.replicate TTY_ANSWER_DATA_LEN TTY_ANSWER_DATA) rfl rfl hlen, rfl, rfl⟩

/-- A frame is the last one of an item when its packet is. -/
theorem isEof_proPackData {p : ProPacketInfo} (hlen : p.data.length ≤ 250) :
    IsEof (proPackData p) ↔ p.cmd = .eof := by
  have hbyte : (proPackData p).getD 1 0 = idCmdNum p := by
    rw [proPackData_eq p hlen]
    rfl
  have hcmd : ProtocolCmd.ofByte (idCmdNum p >>> 2) = p.cmd :=
    (idCmdNum_decode p.devId p.cmd p.num p.data).2.1
  rw [IsEof, hbyte, hcmd]

variable {s s' : LinkState} {k : Track}

/-! What a step can do, its guards included. The proofs about a step use these lemmas, and not the
branches of `linkStep`. -/

/-- When a call begins, and what it leaves. -/
theorem linkStep_call {data : List Byte} : linkStep s (.call data) = some s' ↔
    (∃ ret, s.pc = .returned ret) ∧ (data ≠ [] ∧ data.length < 2 ^ 32) ∧
    s' = { s with
      pc := .ready (txStart 1 data)
      stamp := s.stamp + 1
      callStart := s.stamp + 1
      item := data
      passed := s.passed ++ [data]
      atStart := s.receiver } := by
  cases hpc : s.pc <;> simp [linkStep, hpc, eq_comm]

/-- When a frame is sent, and what it leaves. -/
theorem linkStep_send : linkStep s .send = some s' ↔ ∃ c, s.pc = .ready c ∧
    s' = { s with pc := .waiting (txSent c), dataLine := s.dataLine ++ [⟨c.frame, s.stamp⟩] } := by
  cases hpc : s.pc <;> simp [linkStep, hpc, eq_comm]

/-- When the wait times out, and what it leaves. -/
theorem linkStep_timeout : linkStep s .timeout = some s' ↔ ∃ c, s.pc = .waiting c ∧
    s' = resume s c (waitForAnswer s.pktInfoTable0 c.pktInfo .timedOut) := by
  cases hpc : s.pc <;> simp [linkStep, hpc, eq_comm]

/-- When an answer is taken, and what it leaves. -/
theorem linkStep_takeAnswer : linkStep s .takeAnswer = some s' ↔ ∃ f rest info,
    s.pending = false ∧ s.ackLine = f :: rest ∧ takeAnswer f.bytes = some info ∧
    s' = { s with
      pktInfoTable0 := info, tableStamp := f.stamp, pending := true, ackLine := rest } := by
  simp only [linkStep]
  constructor
  · intro h
    split at h
    · rename_i f rest hpending hline
      obtain ⟨info, hinfo, hs'⟩ := Option.bind_eq_some_iff.mp h
      exact ⟨f, rest, info, hpending, hline, hinfo, (Option.some.inj hs').symm⟩
    · cases h
  · rintro ⟨f, rest, info, hpending, hline, hinfo, rfl⟩
    simp only [hpending, hline, Option.bind_eq_bind, hinfo, Option.bind_some]
    rfl

/-- A signal that no one waits for is lost. -/
theorem linkStep_signal : linkStep s .signal = some s' ↔ s.pending = true ∧
    ((∃ c, s.pc = .waiting c ∧ s' = { s with pc := .woken c, pending := false }) ∨
      ((∃ c, s.pc = .woken c) ∨ ∃ ret, s.pc = .returned ret) ∧
        s' = { s with pending := false }) := by
  cases hpending : s.pending <;> cases hpc : s.pc <;>
    simp [linkStep, hpending, hpc, eq_comm]

/-- When the sender goes on, and what it leaves. -/
theorem linkStep_wake : linkStep s .wake = some s' ↔ ∃ c, s.pc = .woken c ∧
    s' = resume s c (waitForAnswer s.pktInfoTable0 c.pktInfo .signalled) := by
  cases hpc : s.pc <;> simp [linkStep, hpc, eq_comm]

/-- When a frame is delivered, and what it leaves. -/
theorem linkStep_deliver : linkStep s .deliver = some s' ↔ ∃ f rest w ret,
    s.dataLine = f :: rest ∧ dealWithIndata s.receiver Alloc.ok f.bytes = some (w, ret) ∧
    s' = { s with
      receiver := w
      dataLine := rest
      ackLine := s.ackLine ++
        (w.ttyOut.drop s.receiver.ttyOut.length).map fun bytes => ⟨bytes, f.stamp⟩ } := by
  simp only [linkStep]
  constructor
  · intro h
    split at h
    · rename_i f rest hline
      obtain ⟨⟨w, ret⟩, hret, hs'⟩ := Option.bind_eq_some_iff.mp h
      exact ⟨f, rest, w, ret, hline, hret, (Option.some.inj hs').symm⟩
    · cases h
  · rintro ⟨f, rest, w, ret, hline, hret, rfl⟩
    simp only [hline, hret, Option.bind_eq_bind, Option.bind_some]
    rfl

/-- When a frame is lost, and what it leaves. -/
theorem linkStep_loseData {i : Nat} : linkStep s (.loseData i) = some s' ↔
    i < s.dataLine.length ∧ s' = { s with dataLine := s.dataLine.eraseIdx i } := by
  simp [linkStep, eq_comm]

/-- When an answer is lost, and what it leaves. -/
theorem linkStep_loseAnswer {i : Nat} : linkStep s (.loseAnswer i) = some s' ↔
    i < s.ackLine.length ∧ s' = { s with ackLine := s.ackLine.eraseIdx i } := by
  simp [linkStep, eq_comm]

/-- The first frame on the line is that of the first tag. -/
theorem LinkInv.first_frame (h : LinkInv s k) {f : Flight} {rest : List Flight}
    (hline : s.dataLine = f :: rest) :
    ∃ t data, k.data = t :: data ∧ t.flight = f ∧ data.map Tag.flight = rest ∧ Wf t := by
  have hdata := h.data
  rw [hline] at hdata
  obtain ⟨t, data, htags, hf, hrest⟩ := List.map_eq_cons_iff.mp hdata.symm
  exact ⟨t, data, htags, hf, hrest, h.track.wf t (by simp [Track.all, htags])⟩

/-- The first answer on the line is that of the first tag. -/
theorem LinkInv.first_answer (h : LinkInv s k) {f : Flight} {rest : List Flight}
    (hline : s.ackLine = f :: rest) :
    ∃ t acks, k.acks = t :: acks ∧ t.ack = f ∧ acks.map Tag.ack = rest ∧ Wf t := by
  have hacks := h.acks
  rw [hline] at hacks
  obtain ⟨t, acks, htags, hf, hrest⟩ := List.map_eq_cons_iff.mp hacks.symm
  exact ⟨t, acks, htags, hf, hrest, h.track.wf t (by simp [Track.all, Track.heard, htags])⟩

/-- What the receiver has done when it has taken the frame of a tag. -/
theorem Wf.received {t : Tag} (hwf : Wf t) {w w' : World} {ps : List Ptr} {ret : Int}
    (hok : RxOk w ps) (hret : dealWithIndata w Alloc.ok t.flight.bytes = some (w', ret)) :
    (∃ ps', RxOk w' ps') ∧ view w' = (view w).rx (unpacked t.pkt t.cur) ∧
      w'.ttyOut = w.ttyOut ++ [ackFrame t.pkt] := by
  obtain ⟨w₁, _, ps', hret', hok', hview, hout⟩ :=
    dealWithIndata_refines hok t.pkt hwf.payload hwf.fits hwf.data
  obtain ⟨rfl, rfl⟩ := Prod.mk.inj (Option.some.inj (hret.symm.trans hret'))
  exact ⟨⟨ps', hok'⟩, hview, hout⟩

/-- A wait that ends without the right acknowledgement: the call sends again or gives up. -/
theorem resume_again (h : LinkInv s k) {c : TxCall} (hat : TxAt c k.cur)
    (hitem : k.cur.item ∈ s.passed) {r : TransResult} (hr : r = .answerError ∨ r = .outTime) :
    LinkInv (resume s c r) k := by
  have hanswer : resume s c r = { s with pc := .returned (some (-1)) } ∨
      resume s c r = { s with pc := .ready c } := by
    unfold resume txAnswer
    rcases hr with rfl | rfl
    all_goals
      by_cases htries : c.tries = 0
      · left
        simp only [htries, if_true]
      · right
        simp [htries]
  -- Neither the tags nor the receiver change.
  rcases hanswer with heq | heq <;> rw [heq]
  · exact { h with sender := fun hret => absurd hret (by decide) }
  · exact { h with sender := ⟨hat, hitem⟩ }

/-- The right acknowledgement: the call goes on to the next packet or returns 0. -/
theorem resume_ok (h : LinkInv s k) {c : TxCall} (hat : TxAt c k.cur)
    (hitem : k.cur.item ∈ s.passed) (htab : k.tab = some k.cur) :
    ∃ k', LinkInv (resume s c .ok) k' := by
  have hseen := h.track.seen_eq htab
  by_cases hlast : c.last = true
  · have heq : resume s c .ok = { s with pc := .returned (some 0) } := by
      unfold resume
      rw [txAnswer_ok, if_pos hlast]
    rw [heq]
    exact ⟨k, { h with sender := fun _ => ⟨hseen, hat.last.mp hlast⟩ }⟩
  · have hfalse : c.last = false := by simpa using hlast
    have heq : resume s c .ok
        = { s with pc := .ready (txLoop (afterAck c)), stamp := s.stamp + 1 } := by
      unfold resume
      rw [txAnswer_ok, if_neg hlast]
      rfl
    obtain ⟨t, hwf, hfol, hat'⟩ := txAt_next hat h.track.wf_cur hfalse
    -- The receiver has seen a packet that is not the `eof` packet.
    have hnot : ∀ start, ¬ ∃ u, k.seen = some u ∧ u.pkt.cmd = .eof ∧ u.start = start := by
      rintro start ⟨u, hu, heof, _⟩
      rw [hseen] at hu
      rw [← Option.some.inj hu] at heof
      exact hlast (hat.last.mpr heof)
    rw [heq]
    refine ⟨{ k with cur := t }, ?_⟩
    exact { h with
      track := h.track.next htab hwf hfol
      stamp := by rw [hfol.stamp, h.stamp]
      start := by rw [hfol.start, h.start]
      item := by rw [hfol.item, h.item]
      finished := fun hf => absurd hf (hnot _)
      unfinished := fun _ => h.unfinished (hnot _)
      sender := ⟨hat', by rw [hfol.item]; exact hitem⟩ }

/-- A call keeps the invariant. -/
theorem linkInv_call (h : LinkInv s k) {data : List Byte}
    (hstep : linkStep s (.call data) = some s') : ∃ k', LinkInv s' k' := by
  obtain ⟨_, hdata, rfl⟩ := linkStep_call.mp hstep
  obtain ⟨t, hwf, hstamp, hstart, hitem, hsof, hat⟩ :=
    txAt_start hdata.1 hdata.2 (s.stamp + 1)
  have hmono : ∀ x, x ∈ s.passed → x ∈ s.passed ++ [data] := fun x hx =>
    List.mem_append_left _ hx
  -- The receiver has seen nothing of the new call yet.
  have hnot : ¬ Finished { k with cur := t } := by
    rintro ⟨u, hu, _, hus⟩
    have hmem : u ∈ k.heard := by simp [Track.heard, show k.seen = some u from hu]
    have hle := (h.track.le_cur (List.mem_append_left _ hmem)).stamp
    have hwfu : Wf u := h.track.wf u (by simp [Track.all, hmem])
    have := hwfu.start
    rw [show u.start = t.start from hus, hstart] at this
    have := h.stamp
    omega
  refine ⟨{ k with cur := t }, ?_⟩
  exact {
    rx := h.rx
    data := h.data
    acks := h.acks
    table := h.table
    track := h.track.call hwf (by rw [hstamp, h.stamp]) (by rw [hstart, h.stamp]) hsof
    view := h.view
    stamp := hstamp
    start := hstart
    item := hitem
    finished := fun hf => absurd hf hnot
    unfinished := fun _ => rfl
    sent := fun t ht => hmono _ (h.sent t ht)
    passed := fun i hi => ⟨(h.passed i hi).1, hmono _ (h.passed i hi).2⟩
    sender := ⟨hat, by show t.item ∈ s.passed ++ [data]; rw [hitem]; simp⟩
    pending := h.pending }

/-- Sending keeps the invariant. -/
theorem linkInv_send (h : LinkInv s k) (hstep : linkStep s .send = some s') :
    ∃ k', LinkInv s' k' := by
  obtain ⟨c, hpc, rfl⟩ := linkStep_send.mp hstep
  have hsender := h.sender
  rw [SenderOk, hpc] at hsender
  obtain ⟨hat, hitem⟩ := hsender
  refine ⟨{ k with data := k.data ++ [k.cur] }, ?_⟩
  exact { h with
    data := by
      show s.dataLine ++ [⟨c.frame, s.stamp⟩] = (k.data ++ [k.cur]).map Tag.flight
      rw [List.map_append, ← h.data, TxCall.frame, hat.pkt, ← h.stamp]
      rfl
    track := h.track.send
    sent := fun t ht => by
      rcases List.mem_append.mp ht with ht | ht
      · exact h.sent t ht
      · rw [List.mem_singleton.mp ht]
        exact hitem
    sender := ⟨⟨hat.pkt, hat.last, hat.rest⟩, hitem⟩ }

/-- A timeout keeps the invariant. -/
theorem linkInv_timeout (h : LinkInv s k) (hstep : linkStep s .timeout = some s') :
    ∃ k', LinkInv s' k' := by
  obtain ⟨c, hpc, rfl⟩ := linkStep_timeout.mp hstep
  have hsender := h.sender
  rw [SenderOk, hpc] at hsender
  exact ⟨k, resume_again h hsender.1 hsender.2 (Or.inr rfl)⟩

/-- An answer that is taken keeps the invariant. -/
theorem linkInv_takeAnswer (h : LinkInv s k) (hstep : linkStep s .takeAnswer = some s') :
    ∃ k', LinkInv s' k' := by
  obtain ⟨f, rest, info, hpending, hline, hinfo, rfl⟩ := linkStep_takeAnswer.mp hstep
  obtain ⟨a, acks, htags, rfl, rfl, hwf⟩ := h.first_answer hline
  obtain ⟨info', hinfo', hcmd, hnum⟩ := takeAnswer_ackFrame a.pkt
  obtain rfl : info = info' := Option.some.inj (hinfo.symm.trans hinfo')
  refine ⟨{ k with tab := some a, acks := acks }, ?_⟩
  have hsender := h.sender
  exact { h with
    acks := rfl
    table := fun b hb => by
      rw [← Option.some.inj hb]
      exact ⟨rfl, hcmd, hnum⟩
    track := h.track.answer htags
    sender := by
      unfold SenderOk at hsender ⊢
      cases hpc : s.pc with
      | woken c =>
        rw [hpc] at hsender
        exact ⟨hsender.1, hsender.2.1, fun hn => nomatch hn⟩
      | _ => rw [hpc] at hsender; exact hsender
    pending := fun _ hn => nomatch hn }

/-- The signal keeps the invariant. -/
theorem linkInv_signal (h : LinkInv s k) (hstep : linkStep s .signal = some s') :
    ∃ k', LinkInv s' k' := by
  have hsender := h.sender
  obtain ⟨hpending, ⟨c, hpc, rfl⟩ | ⟨_, rfl⟩⟩ := linkStep_signal.mp hstep
  · rw [SenderOk, hpc] at hsender
    exact ⟨k, { h with
      sender := ⟨hsender.1, hsender.2, h.pending hpending⟩
      pending := fun hp => nomatch hp }⟩
  · exact ⟨k, { h with sender := hsender, pending := fun hp => nomatch hp }⟩

/-- Going on keeps the invariant, where the answer is not stale. -/
theorem linkInv_wake (h : LinkInv s k) (hok : NotStale s .wake)
    (hstep : linkStep s .wake = some s') : ∃ k', LinkInv s' k' := by
  obtain ⟨c, hpc, rfl⟩ := linkStep_wake.mp hstep
  have hsender := h.sender
  rw [SenderOk, hpc] at hsender
  obtain ⟨hat, hitem, htab⟩ := hsender
  obtain ⟨a, ha⟩ := Option.ne_none_iff_exists'.mp htab
  obtain ⟨hstamp, hcmd, hnum⟩ := h.table a ha
  have hwait : waitForAnswer s.pktInfoTable0 c.pktInfo .signalled =
      if checkPacketInfo s.pktInfoTable0 c.pktInfo then .ok else .answerError := by
    unfold waitForAnswer
    rw [hcmd]
  by_cases hcheck : checkPacketInfo s.pktInfoTable0 c.pktInfo = true
  · rw [if_pos hcheck] at hwait
    rw [hwait]
    -- The numbers agree and the answer is not stale, so it answers this very packet.
    have hagree : a.pkt.num = k.cur.pkt.num := by
      rw [checkPacketInfo, Bool.and_eq_true, beq_iff_eq, beq_iff_eq] at hcheck
      rw [← hnum, ← hcheck.2, hat.pkt]
    have hcall : k.cur.start ≤ a.stamp := by
      rw [h.start, ← hstamp]
      exact hok c hpc hwait
    rw [h.track.tab_eq_cur ha hcall hagree] at ha
    exact resume_ok h hat hitem ha
  · rw [if_neg hcheck] at hwait
    rw [hwait]
    exact ⟨k, resume_again h hat hitem (Or.inl rfl)⟩

/-- What a received packet does to the queue, in terms of the running call. -/
theorem linkInv_items (h : LinkInv s k) {t : Tag} {data : List Tag} (hdata : k.data = t :: data)
    (hok : t.pkt.cmd = .eof → (view s.receiver).slot 0 ≠ none → s.callStart ≤ t.stamp)
    {items : List Item}
    (hitems : items = rxItems s.receiver ∧ (t.pkt.cmd = .eof → k.seen = some t) ∨
      t.pkt.cmd = .eof ∧ (view s.receiver).slot 0 ≠ none ∧ (∃ u, k.seen = some u ∧ Follows u t) ∧
        items = rxItems s.receiver ++ [⟨1, t.item⟩]) :
    (t.pkt.cmd = .eof ∧ t.start = k.cur.start → items = rxItems s.atStart ++ [⟨1, s.item⟩]) ∧
      (¬ (t.pkt.cmd = .eof ∧ t.start = k.cur.start) → items = rxItems s.atStart) ∧
      ∀ i ∈ items, i.devId = 1 ∧ i.data ∈ s.passed := by
  have hcur : Le t k.cur := h.track.le_cur (by simp [hdata])
  rcases hitems with ⟨rfl, hseen⟩ | ⟨heof, hslot, ⟨u, hu, hfol⟩, rfl⟩
  · refine ⟨fun ⟨heof, hs⟩ => h.finished ⟨t, hseen heof, heof, hs⟩, fun hn => ?_, h.passed⟩
    refine h.unfinished ?_
    -- A receiver that has finished the call sees only its `eof` packet again.
    rintro ⟨u, hu, heof, hs⟩
    have hucur := h.track.seen_eof_eq hu heof hs
    have hut : Le u t := h.track.seen_le hu hdata
    have heq : u = t := by
      refine hut.eq (Nat.le_antisymm hut.stamp ?_)
      rw [hucur]
      exact hcur.stamp
    exact hn ⟨heq ▸ heof, heq ▸ hs⟩
  · have hnot : ¬ Finished k := by
      rintro ⟨v, hv, hveof, _⟩
      rw [hu] at hv
      exact hfol.more (Option.some.inj hv ▸ hveof)
    have hcall : k.cur.start ≤ t.stamp := by
      rw [h.start]
      exact hok heof hslot
    obtain ⟨hstart, hitem⟩ := hcur.call hcall
    -- The `eof` packet is of the running call, so the item it finishes is the item of the call.
    refine ⟨fun _ => ?_, fun hn => absurd ⟨heof, hstart⟩ hn, fun i hi => ?_⟩
    · rw [h.unfinished hnot, hitem, h.item]
    · rcases List.mem_append.mp hi with hi | hi
      · exact h.passed i hi
      · rw [List.mem_singleton.mp hi]
        exact ⟨rfl, h.sent t (by simp [hdata])⟩

/-- A delivery keeps the invariant, where the frame is not stale. -/
theorem linkInv_deliver (h : LinkInv s k) (hok : NotStale s .deliver)
    (hstep : linkStep s .deliver = some s') : ∃ k', LinkInv s' k' := by
  obtain ⟨f, rest, w, ret, hline, hret, rfl⟩ := linkStep_deliver.mp hstep
  obtain ⟨t, data, htags, rfl, rfl, hwf⟩ := h.first_frame hline
  have hready : Ready k.seen t := h.track.ready t (by simp [htags])
  obtain ⟨ps, hrxok⟩ := h.rx
  obtain ⟨hrxok', hview, hout⟩ := hwf.received hrxok hret
  have hanswers : w.ttyOut.drop s.receiver.ttyOut.length = [ackFrame t.pkt] := by
    rw [hout, List.drop_left]
  obtain ⟨hat, hqueue⟩ := rxAt_step h.view hwf hready
  rw [← hview] at hat hqueue
  have h250 : t.pkt.data.length ≤ 250 := Nat.le_trans hwf.fits (by decide)
  have hstale : t.pkt.cmd = .eof → (view s.receiver).slot 0 ≠ none → s.callStart ≤ t.stamp := by
    intro heof hslot
    refine hok _ _ hline ((isEof_proPackData h250).mpr heof) fun hnone => hslot ?_
    show rxSlot s.receiver 0 = none
    simp [rxSlot, hnone]
  obtain ⟨hfin, hunfin, hpassed⟩ := linkInv_items h htags hstale hqueue
  have hseen : Finished { k with seen := some t, data := data, acks := k.acks ++ [t] } ↔
      t.pkt.cmd = .eof ∧ t.start = k.cur.start := by
    constructor
    · rintro ⟨u, hu, heof, hs⟩
      rw [← Option.some.inj hu] at heof hs
      exact ⟨heof, hs⟩
    · rintro ⟨heof, hs⟩
      exact ⟨t, rfl, heof, hs⟩
  have hsender := h.sender
  refine ⟨{ k with seen := some t, data := data, acks := k.acks ++ [t] }, ?_⟩
  exact { h with
    rx := hrxok'
    data := rfl
    acks := by
      show s.ackLine ++ _ = (k.acks ++ [t]).map Tag.ack
      rw [hanswers, h.acks, List.map_append]
      rfl
    track := h.track.deliver htags
    view := hat
    finished := fun hf => hfin (hseen.mp hf)
    unfinished := fun hn => hunfin fun hc => hn (hseen.mpr hc)
    sent := fun t' ht' => h.sent t' (by rw [htags]; exact List.mem_cons_of_mem _ ht')
    passed := hpassed
    sender := by
      unfold SenderOk at hsender ⊢
      cases hpc : s.pc with
      | returned r =>
        rw [hpc] at hsender
        intro hr
        obtain ⟨hcur, heof⟩ := hsender hr
        -- The receiver has seen the newest packet, so this is it again.
        have hut : Le k.cur t := h.track.seen_le hcur htags
        have htc : Le t k.cur := h.track.le_cur (by simp [htags])
        refine ⟨?_, heof⟩
        show some t = some k.cur
        rw [htc.eq (Nat.le_antisymm htc.stamp hut.stamp)]
      | _ => rw [hpc] at hsender; exact hsender }

/-- Losses keep the invariant. -/
theorem linkInv_lose (h : LinkInv s k) {data acks : List Tag} (hdata : data.Sublist k.data)
    (hacks : acks.Sublist k.acks) :
    LinkInv { s with dataLine := data.map Tag.flight, ackLine := acks.map Tag.ack }
      { k with data := data, acks := acks } :=
  { h with
    data := rfl
    acks := rfl
    track := h.track.lose hdata hacks
    sent := fun t ht => h.sent t (hdata.subset ht)
    sender := h.sender }

/-- Every step that meets `NotStale` keeps the invariant. -/
theorem linkInv_step {e : LinkEvent} (h : LinkInv s k) (hok : NotStale s e)
    (hstep : linkStep s e = some s') : ∃ k', LinkInv s' k' := by
  cases e with
  | call data => exact linkInv_call h hstep
  | send => exact linkInv_send h hstep
  | timeout => exact linkInv_timeout h hstep
  | takeAnswer => exact linkInv_takeAnswer h hstep
  | signal => exact linkInv_signal h hstep
  | wake => exact linkInv_wake h hok hstep
  | deliver => exact linkInv_deliver h hok hstep
  | loseData i =>
    obtain ⟨_, rfl⟩ := linkStep_loseData.mp hstep
    have hlose := linkInv_lose h (List.eraseIdx_sublist k.data i) (List.Sublist.refl k.acks)
    rw [← List.eraseIdx_map, ← h.data, ← h.acks] at hlose
    exact ⟨_, hlose⟩
  | loseAnswer i =>
    obtain ⟨_, rfl⟩ := linkStep_loseAnswer.mp hstep
    have hlose := linkInv_lose h (List.Sublist.refl k.data) (List.eraseIdx_sublist k.acks i)
    rw [← List.eraseIdx_map, ← h.data, ← h.acks] at hlose
    exact ⟨_, hlose⟩

/-- In every run whose steps all meet `NotStale`, an item whose call returned 0 has been appended
exactly once during the call, and every item appended was passed. -/
theorem link_delivers (es : List LinkEvent) (s : LinkState) (h : link.Run NotStale es s) :
    Delivered s := by
  have hinv : ∃ k, LinkInv s k := by
    refine h.invariant (I := fun s => ∃ k, LinkInv s k) ⟨_, linkInv_init⟩ ?_
    rintro s e s' hok ⟨k, hk⟩ hstep
    exact linkInv_step hk hok hstep
  obtain ⟨k, hk⟩ := hinv
  exact hk.delivered

/-- A run in which the first call loses its acknowledgement, sends again and returns 0. -/
theorem link_delivers_after_loss :
    ∃ s, link.Run NotStale [.call [7], .send, .deliver, .loseAnswer 0, .timeout, .send, .deliver,
        .takeAnswer, .signal, .wake, .send, .deliver, .takeAnswer, .signal, .wake] s ∧
      s.pc = .returned (some 0) ∧ s.item = [7] ∧ Delivered s := by
  have heval : (link.execOk NotStale [.call [7], .send, .deliver, .loseAnswer 0, .timeout, .send,
      .deliver, .takeAnswer, .signal, .wake, .send, .deliver, .takeAnswer, .signal, .wake]).map
        (fun s => (s.pc, s.item)) = some (.returned (some 0), [7]) := by
    decide +kernel
  obtain ⟨s, hs, hend⟩ := Option.map_eq_some_iff.mp heval
  have hrun := Machine.Run.of_execOk hs
  exact ⟨s, hrun, (Prod.mk.inj hend).1, (Prod.mk.inj hend).2, link_delivers _ s hrun⟩

/-- The first call gives up after its `sof` packet has arrived three times. Its late
acknowledgement is then taken for that of the second item, whose `sof` packets are all lost. The
`eof` packet of the second item closes the first one. -/
theorem stale_ack_delivers_wrong_item :
    ¬ ∀ (es : List LinkEvent) (s : LinkState), link.exec es = some s → Delivered s := by
  intro hall
  have heval : (link.exec [.call [1], .send, .deliver, .timeout, .send, .timeout, .send, .timeout,
      .call [2], .send, .loseData 0, .loseData 0, .loseData 0, .takeAnswer, .signal, .wake, .send,
      .deliver, .takeAnswer, .signal, .wake]).map
        (fun s => (s.pc, rxItems s.receiver, rxItems s.atStart, s.item))
      = some (.returned (some 0), [⟨1, [1]⟩], [], [2]) := by
    decide +kernel
  obtain ⟨s, hs, hend⟩ := Option.map_eq_some_iff.mp heval
  simp only [Prod.mk.injEq] at hend
  obtain ⟨hpc, hitems, hstart, hitem⟩ := hend
  have hlast := (hall _ s hs).returned hpc
  rw [hitems, hstart, hitem] at hlast
  exact absurd hlast (by decide)

end LearnGit.Proofs.Uart
