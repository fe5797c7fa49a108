import LearnGit.Lib.Machine
import LearnGit.Proofs.Uart.ReceiveRefine
import LearnGit.Uart.Link.ThreadRx
import LearnGit.Uart.Link.Transmit

/-!
# `LearnGit.Proofs.Uart.RoundTrip`: a whole item, sent and received

`tx_data_info` cuts an item into segments, and `deal_with_indata` puts them together again.
`dataPackets` is what goes over the line for a list of segments: `sof`, then `tx` packets
numbered 1, 2, 3, 1, and so on, then `eof`. `txAcked_spec` shows that the sender sends the
packets of some cut of the item into non-empty segments that fit, and `deliver_dataPackets`
that any receiver turns these packets into the item.

`data_len` of `tx_data_info` is an `int`, and `length` of an item is an `unsigned int`. From
2^31 bytes on `data_len` is negative, `feed_data_inpacket` takes nothing, and the loop sends
empty segments for ever (`txAcked_of_neg`). `roundTrip_iff` states the bound.
-/

set_option autoImplicit false

namespace LearnGit.Proofs.Uart

open LearnGit.Lib
open LearnGit.Uart.Link

/-! ### The sender -/

/-- The packets for a list of segments after the packet number `n`. The first one has the
command `cmd`. -/
def dataPackets : Nat → ProtocolCmd → List (List Byte) → List ProPacketInfo
  | n, _, [] =>
    [{ devId := 1, cmd := .eof, num := Fin.ofNat 4 (nextPktNum n), data := [TTY_ANSWER_DATA] }]
  | n, cmd, seg :: segs =>
    { devId := 1, cmd := cmd, num := Fin.ofNat 4 (nextPktNum n), data := stuff seg }
      :: dataPackets (nextPktNum n) .tx segs

/-- A segment takes at least one byte and fits into a packet. -/
def SegmentOk (seg : List Byte) : Prop :=
  1 ≤ seg.length ∧ (stuff seg).length ≤ PRO_MAX_DATADOMAIN_SIZE

/-- With data left, the loop of `tx_data_info` cuts off a segment. -/
theorem txLoop_segment {c : TxCall} (hlen : c.dataLen = c.pdata.length) (hne : c.pdata ≠ []) :
    ∃ k, SegmentOk (c.pdata.take k) ∧ 1 ≤ k ∧ k ≤ c.pdata.length ∧
      txLoop c =
        { pktInfo := { c.pktInfo with
            data := stuff (c.pdata.take k), num := Fin.ofNat 4 (nextPktNum c.packetNum) }
          pdata := c.pdata.drop k
          dataLen := (c.pdata.drop k).length
          packetNum := nextPktNum c.packetNum
          last := false
          tries := 3 } := by
  obtain ⟨k, hfeed, hk, hkle, hfit⟩ := feedDataInpacket_spec c.pktInfo c.pdata hne
  have hpos : c.dataLen ≠ 0 := by
    have := List.length_pos_iff.mpr hne
    omega
  refine ⟨k, ⟨?_, hfit⟩, hk, hkle, ?_⟩
  · rw [List.length_take]
    omega
  · have hrest : (c.pdata.length : Int) - k = (c.pdata.drop k).length := by
      rw [List.length_drop]
      omega
    rw [txLoop, if_pos hpos, txSegment, hlen, hfeed]
    simp only [hrest]

/-- Without data left, it goes on to the `eof` packet. -/
theorem txLoop_last {c : TxCall} (hlen : c.dataLen = 0) : txLoop c = txLast c := by
  rw [txLoop, if_neg (not_not.mpr hlen)]

/-- The acknowledgement of a packet is the answer the sender waits for. -/
theorem waitForAnswer_ack (src : ProPacketInfo) :
    waitForAnswer (answerPacket src.devId src.num .ack) src .signalled = .ok := by
  simp [waitForAnswer, answerPacket, checkPacketInfo]

/-- The locals after the acknowledgement of a segment, at the top of the loop. -/
def afterAck (c : TxCall) : TxCall :=
  { c with
    pktInfo := { c.pktInfo with cmd := if c.pktInfo.cmd = .sof then .tx else c.pktInfo.cmd } }

/-- An acknowledged packet is followed by the next one, or ends the call. -/
theorem txAnswer_ok (c : TxCall) :
    txAnswer c .ok = if c.last then .done 0 else .send (txLoop (afterAck c)) := rfl

/-- One packet that is acknowledged at once. -/
theorem txAcked_succ (rounds : Nat) (c : TxCall) :
    txAcked (rounds + 1) c =
      if c.last then some [c.pktInfo]
      else (txAcked rounds (txLoop (afterAck (txSent c)))).map (c.pktInfo :: ·) := by
  rw [txAcked, waitForAnswer_ack, txAnswer_ok, show (txSent c).last = c.last from rfl]
  cases c.last <;> rfl

/-- The packets that are sent when each is acknowledged at once. The induction is on the length
of the data that is left. -/
theorem txAcked_spec (n : Nat) : ∀ c : TxCall, c.pdata.length = n →
    c.dataLen = c.pdata.length → c.pktInfo.devId = 1 → c.pktInfo.crc8 = 0 →
    (c.pktInfo.cmd = .sof ∨ c.pktInfo.cmd = .tx) →
    ∃ segs rounds, segs.flatten = c.pdata ∧ (∀ seg ∈ segs, SegmentOk seg) ∧
      txAcked rounds (txLoop c) = some (dataPackets c.packetNum c.pktInfo.cmd segs) := by
  induction n using Nat.strongRecOn with
  | ind n ih =>
    intro c hn hlen hdev hcrc hcmd
    by_cases hne : c.pdata = []
    · refine ⟨[], 1, by simp [hne], fun _ h => absurd h List.not_mem_nil, ?_⟩
      rw [txLoop_last (by rw [hlen, hne]; rfl), txAcked_succ]
      show some [_] = some [_]
      simp only [txLast, hdev, hcrc]
    · obtain ⟨k, hseg, hk, hkle, hloop⟩ := txLoop_segment hlen hne
      -- The call goes on with the rest of the data and the command `tx`.
      have hcmd' : (afterAck (txSent (txLoop c))).pktInfo.cmd = .tx := by
        show (if (txLoop c).pktInfo.cmd = .sof then ProtocolCmd.tx else (txLoop c).pktInfo.cmd) = .tx
        rw [hloop]
        rcases hcmd with h | h <;> simp [h]
      have hpdata : (afterAck (txSent (txLoop c))).pdata = c.pdata.drop k := by rw [hloop]; rfl
      obtain ⟨segs, rounds, hflat, hsegs, hacked⟩ := ih (c.pdata.drop k).length
        (by rw [List.length_drop]; omega) (afterAck (txSent (txLoop c))) (by rw [hpdata])
        (by rw [hloop]; rfl) (by rw [hloop]; exact hdev) (by rw [hloop]; exact hcrc) (Or.inr hcmd')
      refine ⟨c.pdata.take k :: segs, rounds + 1, ?_, ?_, ?_⟩
      · rw [List.flatten_cons, hflat, hpdata, List.take_append_drop]
      · intro seg hmem
        rcases List.mem_cons.mp hmem with rfl | hmem
        · exact hseg
        · exact hsegs seg hmem
      · rw [txAcked_succ, hacked, hcmd', hloop]
        simp only [Bool.false_eq_true, if_false, Option.map_some, dataPackets, hdev, hcrc]
        rfl

/-- With a negative length the loop sends empty segments and never ends. -/
theorem txAcked_of_neg (rounds : Nat) :
    ∀ c : TxCall, c.dataLen < 0 → txAcked rounds (txLoop c) = none := by
  induction rounds with
  | zero => intro c _; rfl
  | succ rounds ih =>
    intro c hneg
    have hloop : txLoop c = txSegment c := by
      rw [txLoop, if_pos (by omega)]
    have hfeed := feedDataInpacket_of_nonpos c.pktInfo c.pdata c.dataLen (by omega)
    -- The segment is empty, and the length is as negative as before.
    rw [txAcked_succ, hloop, txSegment, hfeed]
    show (txAcked rounds (txLoop _)).map _ = none
    rw [ih _ (by show c.dataLen - (0 : Nat) < 0; omega)]
    rfl

/-- `data_len` of an item, for the lengths an `unsigned int` holds. -/
theorem txInit_dataLen (x : List Byte) (hlen : x.length < 2 ^ 32) :
    (x.length < 2 ^ 31 → (txInit 1 x).dataLen = x.length) ∧
      (2 ^ 31 ≤ x.length → (txInit 1 x).dataLen < 0) := by
  have hinit : (txInit 1 x).dataLen = Int.bmod x.length (2 ^ 32) := by rw [txInit]
  rw [hinit]
  constructor
  · intro hlt
    exact Int.bmod_eq_of_le (by omega) (by omega)
  · intro hge
    have hmod : (x.length : Int) % ((2 ^ 32 : Nat) : Int) = x.length :=
      Int.emod_eq_of_lt (by omega) (by omega)
    rw [Int.bmod_def, hmod, if_neg (by omega)]
    omega

/-! ### The receiver -/

/-- A packet as it comes out of `pro_unpack_pkg`, with the payload `x`. -/
def unpacked (info : ProPacketInfo) (x : List Byte) : ProPacketInfo :=
  { info with crc8 := proGenCrc8 info.data, data := x }

/-- `deal_with_indata` on the frame of a data packet does what the view says, and
acknowledges. -/
theorem dealWithIndata_refines {w : World} {ps : List Ptr} (h : RxOk w ps) (info : ProPacketInfo)
    {x : List Byte} (hdata : info.data = stuff x) (hlen : info.data.length ≤ PRO_MAX_DATADOMAIN_SIZE)
    (hinfo : DataPacket info) :
    Does (dealWithIndata w Alloc.ok (proPackData info)) w ((view w).rx (unpacked info x))
      [ackFrame info] := by
  have h250 : info.data.length ≤ 250 := Nat.le_trans hlen (by decide)
  rw [dealWithIndata_data_frame w Alloc.ok info x hdata h250 hinfo.2]
  have hdata' : DataPacket (unpacked info x) := hinfo
  exact rxDataInfo_refines h hdata'

/-- Any frames that `get_data_head` accepts, with any outcome of the allocations, or a call of
`link_recv(1)`. -/
inductive RxEvent where
  | frame (alloc : Alloc) (pbuffer : List Byte)
  | recv

/-- The receiver from start-up on. `link_listen` announces device 1 only, so `link_recv` is
called for this device. -/
def receiver : Machine World RxEvent where
  init := World.init
  step
    | w, .frame alloc pbuffer =>
      if (getDataHead pbuffer).isSome then (dealWithIndata w alloc pbuffer).map (·.1) else none
    | w, .recv => (linkRecv w 1).map (·.1)

/-- The pointer-level invariant, with only device 1 in the queue. -/
def RxInv (w : World) : Prop := (∃ ps, RxOk w ps) ∧ ∀ i ∈ rxItems w, i.devId = 1

/-- What keeps the pointers right keeps the invariant. -/
theorem KeepsOk.rxInv {r : Option (World × Int)} {w w' : World} (h : KeepsOk r (rxItems w))
    (hinv : RxInv w) (hr : r.map (·.1) = some w') : RxInv w' := by
  obtain ⟨u, ret, ps, rfl, hok, hitems⟩ := h
  obtain rfl : u = w' := Option.some.inj hr
  refine ⟨⟨ps, hok⟩, fun i hi => ?_⟩
  rcases hitems with heq | ⟨d, heq⟩
  · exact hinv.2 i (heq ▸ hi)
  · rw [heq, List.mem_append, List.mem_singleton] at hi
    rcases hi with hi | rfl
    · exact hinv.2 i hi
    · rfl

/-- What `get_data_head` accepts is unpacked as a packet of device 1 with a command below
`pro_cmd_timeout`. -/
theorem unpack_of_getDataHead {pbuffer : List Byte} (hhead : (getDataHead pbuffer).isSome)
    {info : ProPacketInfo} {n : Nat} (hinfo : proUnpackPkg pbuffer n = some info) :
    info.devId = 1 ∧ info.cmd ≠ .timeout ∧ info.cmd ≠ .invalid := by
  unfold proUnpackPkg at hinfo
  simp only [Option.bind_eq_bind, Option.bind_eq_some_iff] at hinfo
  obtain ⟨data, _, hinfo⟩ := hinfo
  rw [← Option.some.inj hinfo]
  unfold getDataHead at hhead
  dsimp only at hhead
  split at hhead
  · exact absurd hhead Bool.false_ne_true
  · rename_i hdev
    refine ⟨not_not.mp hdev, fun hc => ?_, fun hc => ?_⟩ <;>
    · have hc' : ProtocolCmd.ofByte (pbuffer.getD 1 0 >>> 2) = _ := hc
      rw [hc'] at hhead
      exact absurd hhead Bool.false_ne_true

/-- Every frame keeps the invariant. -/
theorem dealWithIndata_rxInv {w w' : World} (hinv : RxInv w) {alloc : Alloc} {pbuffer : List Byte}
    (hhead : (getDataHead pbuffer).isSome)
    (h : (dealWithIndata w alloc pbuffer).map (·.1) = some w') : RxInv w' := by
  obtain ⟨⟨ps, hok⟩, hdev⟩ := hinv
  obtain ⟨⟨u, ret⟩, hu, rfl⟩ := Option.map_eq_some_iff.mp h
  unfold dealWithIndata at hu
  rw [Option.bind_eq_bind, Option.bind_eq_some_iff] at hu
  obtain ⟨info, hinfo, hu⟩ := hu
  obtain ⟨hone, htimeout, hinvalid⟩ := unpack_of_getDataHead hhead hinfo
  -- An answer only changes `pkt_info_table[0]` and signals.
  have hanswer : ∀ v : World, v = { w with pktInfoTable0 := info, signals := w.signals + 1 } →
      RxInv v := by
    intro v hv
    rw [hv]
    exact ⟨⟨ps, ⟨hok.unlocked, hok.fresh, hok.list, hok.slot, hok.slot_inj⟩⟩, hdev⟩
  have hdata : info.cmd = .sof ∨ info.cmd = .tx ∨ info.cmd = .eof →
      rxDataInfo w alloc info = some (u, ret) → RxInv u := by
    intro hcmd hrx
    exact (rxDataInfo_keepsOk hok alloc ⟨hone, hcmd⟩).rxInv ⟨⟨ps, hok⟩, hdev⟩ (by rw [hrx]; rfl)
  split at hu
  · cases hcmd : info.cmd with
    | timeout => exact absurd hcmd htimeout
    | invalid => exact absurd hcmd hinvalid
    | sof => simp only [hcmd] at hu; exact hdata (Or.inl hcmd) hu
    | tx => simp only [hcmd] at hu; exact hdata (Or.inr (Or.inl hcmd)) hu
    | eof => simp only [hcmd] at hu; exact hdata (Or.inr (Or.inr hcmd)) hu
    | ack | nak | can =>
      simp only [hcmd, World.lock, hok.unlocked, Bool.false_eq_true, if_false,
        Option.bind_eq_bind, Option.bind_some, World.unlock,
        update_lock_unlock (hok.unlocked .txSecWind)] at hu
      exact hanswer u (Prod.mk.inj (Option.some.inj hu)).1.symm
  · rw [sendAnswerNack, writePacket_eq (hok.unlocked .txBuf)] at hu
    rw [← (Prod.mk.inj (Option.some.inj hu)).1]
    exact ⟨⟨ps, hok.write _⟩, hdev⟩

/-- A `link_recv` keeps the invariant. -/
theorem linkRecv_rxInv {w w' : World} (hinv : RxInv w) (h : (linkRecv w 1).map (·.1) = some w') :
    RxInv w' := by
  obtain ⟨⟨ps, hok⟩, hdev⟩ := hinv
  rcases linkRecv_one hok hdev with hrecv | ⟨u, p, ps', _, hrecv, hok', hview⟩
  · rw [hrecv] at h
    rw [← Option.some.inj h]
    exact ⟨⟨ps, hok⟩, hdev⟩
  · rw [hrecv] at h
    obtain rfl : u = w' := Option.some.inj h
    refine ⟨⟨ps', hok'⟩, fun j hj => hdev j ?_⟩
    have hitems : rxItems u = (rxItems w).eraseP fun i => i.devId = 1 :=
      congrArg RxView.items hview
    rw [hitems] at hj
    exact List.mem_of_mem_eraseP hj

/-- Every state of the receiver keeps the invariant. -/
theorem receiver_rxInv {es : List RxEvent} {w : World} (h : receiver.exec es = some w) :
    RxInv w := by
  refine (Machine.Run.of_exec h).invariant (I := RxInv) ?_ fun w e w' _ hinv hstep => ?_
  · exact ⟨⟨[], rxOk_init⟩, fun _ hi => absurd hi List.not_mem_nil⟩
  · cases e with
    | recv => exact linkRecv_rxInv hinv hstep
    | frame alloc pbuffer =>
      by_cases hhead : (getDataHead pbuffer).isSome
      · have hs : receiver.step w (.frame alloc pbuffer)
            = (dealWithIndata w alloc pbuffer).map (·.1) := if_pos hhead
        exact dealWithIndata_rxInv hinv hhead (hs.symm.trans hstep)
      · have hnone : receiver.step w (.frame alloc pbuffer) = none := if_neg hhead
        rw [hnone] at hstep
        exact nomatch hstep

/-! ### The transfer -/

/-- The frames are handed to `deal_with_indata` one after another. -/
def deliver (w : World) (frames : List (List Byte)) : Option World :=
  frames.foldlM (fun w f => (dealWithIndata w Alloc.ok f).map (·.1)) w

/-- Frames are delivered one after the other. -/
theorem deliver_cons {w w' : World} {ret : Int} {f : List Byte} {frames : List (List Byte)}
    (h : dealWithIndata w Alloc.ok f = some (w', ret)) :
    deliver w (f :: frames) = deliver w' frames := by
  unfold deliver
  rw [List.foldlM_cons, h]
  rfl

/-- The packet numbers are 1, 2 and 3. -/
theorem nextPktNum_range {n : Nat} (h : n ≤ 3) : 1 ≤ nextPktNum n ∧ nextPktNum n ≤ 3 := by
  unfold nextPktNum MAX_PACKET_NUM MIN_PACKET_NUM
  split <;> omega

/-- The next number is one of two bits. -/
theorem nextPktNum_val {n : Nat} (h : n ≤ 3) :
    (Fin.ofNat 4 (nextPktNum n)).val = nextPktNum n :=
  Nat.mod_eq_of_lt (Nat.lt_succ_of_le (nextPktNum_range h).2)

/-- The rest of an item: with the bytes `d` under assembly and the next number expected, the
`tx` packets and the `eof` packet complete the item. The induction is on the segments. -/
theorem deliver_rest (segs : List (List Byte)) : ∀ (n : Nat) (w : World) (ps : List Ptr)
    (d : List Byte), n ≤ 3 → RxOk w ps → (view w).slot 0 = some d →
    (view w).expect 0 = nextPktNum n → (∀ seg ∈ segs, SegmentOk seg) →
    ∃ w', deliver w ((dataPackets n .tx segs).map proPackData) = some w' ∧
      rxItems w' = rxItems w ++ [⟨1, d ++ segs.flatten⟩] := by
  induction segs with
  | nil =>
    -- The `eof` packet, whose number is not looked at.
    intro n w ps d _ hok hslot _ _
    obtain ⟨w', ret, ps', hret, _, hview, _⟩ := dealWithIndata_refines hok
      { devId := 1, cmd := .eof, num := Fin.ofNat 4 (nextPktNum n), data := [TTY_ANSWER_DATA] }
      (x := [TTY_ANSWER_DATA]) rfl (by simp [PRO_MAX_DATADOMAIN_SIZE]) ⟨rfl, Or.inr (Or.inr rfl)⟩
    refine ⟨w', ?_, ?_⟩
    · show deliver w [_] = _
      rw [deliver_cons hret]
      rfl
    · have hitems := congrArg RxView.items hview
      simp only [RxView.rx, unpacked, Fin.val_one, Nat.sub_self, hslot] at hitems
      rw [show rxItems w' = _ from hitems, List.flatten_nil, List.append_nil]
      rfl
  | cons seg segs ih =>
    intro n w ps d hn hok hslot hexp hsegs
    have hseg := hsegs seg (by simp)
    obtain ⟨w₁, ret, ps₁, hret, hok₁, hview, _⟩ := dealWithIndata_refines hok
      { devId := 1, cmd := .tx, num := Fin.ofNat 4 (nextPktNum n), data := stuff seg }
      (x := seg) rfl hseg.2 ⟨rfl, Or.inr (Or.inl rfl)⟩
    have hnext := nextPktNum_range hn
    -- The number is the expected one, so the segment is taken.
    have htaken : view w₁ = (view w).store 0 (d ++ seg) (nextPktNum (nextPktNum n)) := by
      rw [hview]
      simp only [RxView.rx, unpacked, Fin.val_one, Nat.sub_self, hslot, hexp, nextPktNum_val hn,
        if_true]
    obtain ⟨w', hw', hitems⟩ := ih (nextPktNum n) w₁ ps₁ (d ++ seg) hnext.2 hok₁
      (by rw [htaken]; simp [RxView.store]) (by rw [htaken]; simp [RxView.store])
      fun s hs => hsegs s (by simp [hs])
    refine ⟨w', ?_, ?_⟩
    · show deliver w (_ :: _) = _
      rw [deliver_cons hret]
      exact hw'
    · have hsame : rxItems w₁ = rxItems w := congrArg RxView.items htaken
      rw [hitems, hsame, List.flatten_cons, List.append_assoc]

/-- The packets of an item append it to the queue of any receiver. -/
theorem deliver_dataPackets {w : World} (hinv : RxInv w) {seg : List Byte}
    {segs : List (List Byte)} (hsegs : ∀ s ∈ seg :: segs, SegmentOk s) :
    ∃ w', deliver w ((dataPackets 0 .sof (seg :: segs)).map proPackData) = some w' ∧
      rxItems w' = rxItems w ++ [⟨1, (seg :: segs).flatten⟩] := by
  obtain ⟨⟨ps, hok⟩, _⟩ := hinv
  have hseg := hsegs seg (by simp)
  obtain ⟨w₁, ret, ps₁, hret, hok₁, hview, _⟩ := dealWithIndata_refines hok
    { devId := 1, cmd := .sof, num := Fin.ofNat 4 (nextPktNum 0), data := stuff seg }
    (x := seg) rfl hseg.2 ⟨rfl, Or.inl rfl⟩
  -- The `sof` packet overwrites whatever was under assembly.
  have htaken : view w₁ = (view w).store 0 seg 2 := hview
  obtain ⟨w', hw', hitems⟩ := deliver_rest segs 1 w₁ ps₁ seg (by omega) hok₁
    (by rw [htaken]; simp [RxView.store]) (by rw [htaken]; simp [RxView.store]; rfl)
    fun s hs => hsegs s (by simp [hs])
  refine ⟨w', ?_, ?_⟩
  · show deliver w (_ :: _) = _
    rw [deliver_cons hret]
    exact hw'
  · have hsame : rxItems w₁ = rxItems w := congrArg RxView.items htaken
    rw [hitems, hsame, List.flatten_cons]

/-- Every packet of an item passes the CRC check. -/
theorem crcMatches_dataPackets (segs : List (List Byte)) : ∀ (n : Nat) (cmd : ProtocolCmd),
    (∀ seg ∈ segs, SegmentOk seg) → ∀ p ∈ dataPackets n cmd segs, ∃ info,
      proUnpackPkg (proPackData p) ((proPackData p).getD 2 0).toNat = some info ∧
        crcMatches (proPackData p) info = true := by
  -- A packet with a stuffed payload of at most 240 bytes does.
  have hpass : ∀ (p : ProPacketInfo) (x : List Byte), p.data = stuff x →
      p.data.length ≤ PRO_MAX_DATADOMAIN_SIZE → ∃ info,
      proUnpackPkg (proPackData p) ((proPackData p).getD 2 0).toNat = some info ∧
        crcMatches (proPackData p) info = true := by
    intro p x hdata hlen
    have h250 : p.data.length ≤ 250 := Nat.le_trans hlen (by decide)
    exact ⟨_, proUnpackPkg_proPackData p x hdata h250, crcMatches_proPackData p _ h250 rfl⟩
  induction segs with
  | nil =>
    intro n cmd _ p hp
    rw [List.mem_singleton.mp hp]
    exact hpass _ [TTY_ANSWER_DATA] rfl (by simp [PRO_MAX_DATADOMAIN_SIZE])
  | cons seg segs ih =>
    intro n cmd hsegs p hp
    rcases List.mem_cons.mp hp with rfl | hp
    · exact hpass _ seg rfl (hsegs seg (by simp)).2
    · exact ih _ _ (fun s hs => hsegs s (by simp [hs])) p hp

/-- The item `x` gets through: the sender stops after finitely many packets, which are those of
a cut of `x` into non-empty segments that fit. All of them pass the CRC check, and from every
state of the receiver they append exactly the item `x`. -/
def RoundTrip (x : List Byte) : Prop :=
  ∃ rounds segs, txAcked rounds (txStart 1 x) = some (dataPackets 0 .sof segs) ∧
    segs.flatten = x ∧ (∀ seg ∈ segs, SegmentOk seg) ∧
    (∀ p ∈ dataPackets 0 .sof segs, ∃ info,
      proUnpackPkg (proPackData p) ((proPackData p).getD 2 0).toNat = some info ∧
        crcMatches (proPackData p) info = true) ∧
    ∀ es w, receiver.exec es = some w →
      ∃ w', deliver w ((dataPackets 0 .sof segs).map proPackData) = some w' ∧
        rxItems w' = rxItems w ++ [⟨1, x⟩]

/-- Encode and decode of a whole item. A non-empty item, of a length that its `unsigned int`
holds, gets through if and only if it is shorter than 2^31 bytes. -/
theorem roundTrip_iff (x : List Byte) (hne : x ≠ []) (hlen : x.length < 2 ^ 32) :
    RoundTrip x ↔ x.length < 2 ^ 31 := by
  obtain ⟨hsmall, hlarge⟩ := txInit_dataLen x hlen
  constructor
  · rintro ⟨rounds, segs, hacked, _⟩
    by_contra hge
    have hnone := txAcked_of_neg rounds (txInit 1 x) (hlarge (Nat.not_lt.mp hge))
    rw [txStart, hnone] at hacked
    exact nomatch hacked
  · intro hlt
    obtain ⟨segs, rounds, hflat, hsegs, hacked⟩ := txAcked_spec x.length (txInit 1 x) rfl
      (hsmall hlt) rfl rfl (Or.inl rfl)
    have hflat' : segs.flatten = x := hflat
    refine ⟨rounds, segs, hacked, hflat', hsegs, crcMatches_dataPackets segs 0 .sof hsegs, ?_⟩
    intro es w hrun
    -- An item that is not empty has a first segment, which is sent as `sof`.
    cases segs with
    | nil => exact absurd hflat'.symm hne
    | cons seg segs =>
      rw [← hflat']
      exact deliver_dataPackets (receiver_rxInv hrun) hsegs

/-- The theorem applied to an item with the three bytes that are escaped. -/
theorem roundTrip_iff_escapes :
    ([0x00, 0xFF, 0xAA] : List Byte) ≠ [] ∧ ([0x00, 0xFF, 0xAA] : List Byte).length < 2 ^ 32 ∧
      (RoundTrip [0x00, 0xFF, 0xAA] ↔ ([0x00, 0xFF, 0xAA] : List Byte).length < 2 ^ 31) := by
  have hne : ([0x00, 0xFF, 0xAA] : List Byte) ≠ [] := by decide
  have hlen : ([0x00, 0xFF, 0xAA] : List Byte).length < 2 ^ 32 := by decide
  exact ⟨hne, hlen, roundTrip_iff _ hne hlen⟩

/-- An item of 2^31 bytes does not get through: `data_len` is negative. -/
theorem not_roundTrip_two_gib :
    ¬ ∀ x : List Byte, x ≠ [] → x.length < 2 ^ 32 → RoundTrip x := by
  intro hclaim
  have hlength : (List.replicate (2 ^ 31) (1 : Byte)).length = 2 ^ 31 := List.length_replicate
  have hne : List.replicate (2 ^ 31) (1 : Byte) ≠ [] := by
    intro hnil
    rw [hnil] at hlength
    exact absurd hlength (by decide)
  have hlen : (List.replicate (2 ^ 31) (1 : Byte)).length < 2 ^ 32 := by
    rw [hlength]
    decide
  obtain ⟨rounds, segs, hacked, _⟩ := hclaim _ hne hlen
  have hneg := (txInit_dataLen _ hlen).2 (Nat.le_of_eq hlength.symm)
  rw [txStart, txAcked_of_neg rounds _ hneg] at hacked
  exact nomatch hacked

end LearnGit.Proofs.Uart
