import LearnGit.Proofs.Uart.System

/-!
# `LearnGit.Proofs.Uart.InTime`: nothing is lost while the answers come in time

`in_time_nothing_lost`: in a run of the two boards in which no wait for an answer times out, no frame
is stale and no call of `tx_data_info` fails. So what is said is handled in order, and nothing is
lost between the two boards, without a condition on the frames. A frame may still be lost in such a
run; then the call waits for ever, and what was said stays in it and behind it.

Between two writes there is one frame on the line, or one answer, or an answer that is not yet
signalled (`Alone`). It belongs to the packet that is being sent, since nothing is sent twice.
-/

set_option autoImplicit false

namespace LearnGit.Proofs.Uart

open LearnGit.Lib
open LearnGit.Uart
open LearnGit.Uart.Link

/-- The steps but the timeouts of the wait for an answer. -/
def InTime (_ : System) : SystemEvent → Prop
  | .link .timeout => False
  | _ => True

instance (s : System) : (e : SystemEvent) → Decidable (InTime s e)
  | .link .timeout => .isFalse id
  | .link (.call _) | .link .send | .link .takeAnswer | .link .signal | .link .wake
  | .link .deliver | .link (.loseData _) | .link (.loseAnswer _) | .say _ _ _ | .threadTx
  | .events => .isTrue trivial

/-- Nothing is on its way. -/
structure Quiet (s : LinkState) : Prop where
  data : s.dataLine = []
  acks : s.ackLine = []
  pending : s.pending = false

/-- `pkt_info_table[0]` answers the packet that is being sent. -/
structure Answered (s : LinkState) : Prop where
  stamp : s.tableStamp = s.stamp
  devId : s.pktInfoTable0.devId = 1

/-- At most one frame, answer or signal is on its way, for the packet that is being sent. -/
structure Alone (s : LinkState) : Prop where
  data : ∀ f ∈ s.dataLine, f.stamp = s.stamp
  acks : ∀ f ∈ s.ackLine, f.stamp = s.stamp
  one : s.dataLine.length + s.ackLine.length + s.pending.toNat ≤ 1
  pending : s.pending = true → Answered s

/-- The invariant of a run without timeouts. -/
def PromptOk (s : LinkState) : Prop :=
  s.callStart ≤ s.stamp ∧
    match s.pc with
    | .returned ret => Quiet s ∧ (ret = none ∨ ret = some 0)
    | .ready _ => Quiet s
    | .waiting _ => Alone s
    | .woken _ => Quiet s ∧ Answered s

variable {s s' : LinkState} {r a : World} {k : Track} {got : List Item}

/-- An answer that was written for the packet being sent is taken for it. -/
theorem answered_accepted (h : LinkInv (shadow s r a) k) {c : TxCall} (hat : TxAt c k.cur)
    (htab : k.tab ≠ none) (hanswered : Answered s) :
    waitForAnswer s.pktInfoTable0 c.pktInfo .signalled = .ok := by
  obtain ⟨t, ht⟩ := Option.ne_none_iff_exists'.mp htab
  obtain ⟨hstamp, hcmd, hnum⟩ := h.table t ht
  -- The stamp of the answer is that of the packet being sent, so it answers this packet.
  have hcur : t = k.cur := by
    have hle : Le t k.cur := h.track.le_cur (by simp [Track.heard, ht])
    refine hle.eq (hstamp.symm.trans (hanswered.stamp.trans ?_))
    exact h.stamp.symm
  have hcheck : checkPacketInfo s.pktInfoTable0 c.pktInfo = true := by
    rw [checkPacketInfo, Bool.and_eq_true, beq_iff_eq, beq_iff_eq, hat.pkt]
    refine ⟨?_, ?_⟩
    · rw [h.track.wf_cur.data.1, hanswered.devId]
    · rw [show s.pktInfoTable0.num = t.pkt.num from hnum, hcur]
  unfold waitForAnswer
  rw [show s.pktInfoTable0.cmd = .ack from hcmd]
  simp only [hcheck, if_true]

/-- The answer to a packet of device 1 is one of device 1. -/
theorem takeAnswer_devId {p info : ProPacketInfo} (hp : p.devId = 1)
    (h : takeAnswer (ackFrame p) = some info) : info.devId = 1 := by
  have hlen : (answerPacket p.devId p.num .ack).data.length ≤ 250 := by
    simp [answerPacket, TTY_ANSWER_DATA_LEN]
  rw [ackFrame, takeAnswer_proPackData (q := answerPacket p.devId p.num .ack)
    (x := List.replicate TTY_ANSWER_DATA_LEN TTY_ANSWER_DATA) rfl rfl hlen] at h
  rw [← Option.some.inj h]
  exact hp

/-- After the right answer the call goes on to a new packet, or it returns 0. -/
theorem promptOk_resume (hstart : s.callStart ≤ s.stamp) (hquiet : Quiet s) (c : TxCall) :
    PromptOk (resume s c .ok) := by
  unfold resume
  rw [txAnswer_ok]
  by_cases hlast : c.last = true
  · rw [if_pos hlast]
    exact ⟨hstart, ⟨hquiet.data, hquiet.acks, hquiet.pending⟩, Or.inr rfl⟩
  · rw [if_neg hlast]
    exact ⟨Nat.le_succ_of_le hstart, hquiet.data, hquiet.acks, hquiet.pending⟩

/-- Frames are on the line only while the sender waits. -/
theorem PromptOk.waiting (h : PromptOk s) (hbusy : ¬ Quiet s) :
    s.callStart ≤ s.stamp ∧ (∃ c, s.pc = .waiting c) ∧ Alone s := by
  obtain ⟨hstart, hpc⟩ := h
  cases hcase : s.pc with
  | returned ret =>
    rw [hcase] at hpc
    exact absurd hpc.1 hbusy
  | ready c =>
    rw [hcase] at hpc
    exact absurd hpc hbusy
  | waiting c =>
    rw [hcase] at hpc
    exact ⟨hstart, ⟨c, rfl⟩, hpc⟩
  | woken c =>
    rw [hcase] at hpc
    exact absurd hpc.1 hbusy

/-- No frame is stale in a run without timeouts. -/
theorem PromptOk.notStale (h : PromptOk s) (e : LinkEvent) : NotStale s e := by
  cases e with
  | wake =>
    intro c hpc _
    obtain ⟨hstart, hplace⟩ := h
    rw [hpc] at hplace
    rw [hplace.2.stamp]
    exact hstart
  | deliver =>
    intro f rest hline _ _
    have hbusy : ¬ Quiet s := fun hq => by cases hline.symm.trans hq.data
    obtain ⟨hstart, _, halone⟩ := h.waiting hbusy
    rw [halone.data f (by rw [hline]; exact List.mem_cons_self)]
    exact hstart
  | _ => trivial

/-- The sender that wakes up with its answer keeps the link prompt. -/
theorem promptOk_wake (h : LinkInv (shadow s r a) k) (hp : PromptOk s)
    (hstep : linkStep s .wake = some s') : PromptOk s' := by
  obtain ⟨c, hpc, rfl⟩ := linkStep_wake.mp hstep
  obtain ⟨hstart, hplace⟩ := hp
  rw [hpc] at hplace
  have hsender := h.sender
  rw [SenderOk, show (shadow s r a).pc = .woken c from hpc] at hsender
  rw [answered_accepted h hsender.1 hsender.2.2 hplace.2]
  exact promptOk_resume hstart hplace.1 c

/-- A delivered frame keeps the link prompt. -/
theorem promptOk_deliver (h : LinkInv (shadow s r a) k) (hkeeps : Keeps r s.receiver got)
    (hp : PromptOk s) (hstep : linkStep s .deliver = some s') : PromptOk s' := by
  obtain ⟨f, rest, w, ret, hline, hret, rfl⟩ := linkStep_deliver.mp hstep
  have hbusy : ¬ Quiet s := fun hq => by cases hline.symm.trans hq.data
  obtain ⟨hstart, ⟨c, hpc⟩, halone⟩ := hp.waiting hbusy
  obtain ⟨t, data, htags, rfl, rfl, hwf⟩ := h.first_frame hline
  obtain ⟨ps, hreal⟩ := hkeeps.realOk
  obtain ⟨_, _, hout⟩ := hwf.received hreal hret
  -- One frame is on the line, and its answer takes its place.
  have hone := halone.one
  rw [hline, List.length_cons] at hone
  have hpending : s.pending = false := by
    cases hb : s.pending with
    | false => rfl
    | true => rw [hb, Bool.toNat_true] at hone; omega
  refine ⟨hstart, ?_⟩
  simp only [hpc, hout, List.drop_left]
  refine ⟨fun g hg => halone.data g ?_, fun g hg => ?_, ?_, fun hp => ?_⟩
  · rw [hline]
    exact List.mem_cons_of_mem _ hg
  · rcases List.mem_append.mp hg with hg | hg
    · exact halone.acks g hg
    · obtain ⟨_, _, rfl⟩ := List.mem_map.mp hg
      exact halone.data t.flight (by rw [hline]; exact List.mem_cons_self)
  · simp only [List.length_append, List.length_map, List.length_singleton] at hone ⊢
    omega
  · exact absurd (hpending.symm.trans hp) (by decide)

/-- An answer that is taken keeps the link prompt. -/
theorem promptOk_takeAnswer (h : LinkInv (shadow s r a) k) (hp : PromptOk s)
    (hstep : linkStep s .takeAnswer = some s') : PromptOk s' := by
  obtain ⟨f, rest, info, hpending, hline, hinfo, rfl⟩ := linkStep_takeAnswer.mp hstep
  have hbusy : ¬ Quiet s := fun hq => by cases hline.symm.trans hq.acks
  obtain ⟨hstart, ⟨c, hpc⟩, halone⟩ := hp.waiting hbusy
  obtain ⟨t, acks, htags, rfl, rfl, hwf⟩ := h.first_answer hline
  have hdev : info.devId = 1 := takeAnswer_devId hwf.data.1 hinfo
  have hone := halone.one
  rw [hline, List.length_cons] at hone
  refine ⟨hstart, ?_⟩
  simp only [hpc]
  refine ⟨halone.data, fun g hg => halone.acks g ?_, ?_, fun _ => ⟨?_, hdev⟩⟩
  · rw [hline]
    exact List.mem_cons_of_mem _ hg
  · simp only [Bool.toNat_true]
    omega
  · exact halone.acks t.ack (by rw [hline]; exact List.mem_cons_self)

/-- Frames and answers may be lost, and the receiver does not matter. -/
theorem PromptOk.lose (h : PromptOk s) {data acks : List Flight} (hdata : data.Sublist s.dataLine)
    (hacks : acks.Sublist s.ackLine) (w : World) :
    PromptOk { s with receiver := w, dataLine := data, ackLine := acks } := by
  have hquiet : Quiet s → data = [] ∧ acks = [] := by
    intro hq
    rw [hq.data] at hdata
    rw [hq.acks] at hacks
    exact ⟨List.eq_nil_of_sublist_nil hdata, List.eq_nil_of_sublist_nil hacks⟩
  obtain ⟨hstart, hplace⟩ := h
  refine ⟨hstart, ?_⟩
  cases hpc : s.pc with
  | returned ret =>
    rw [hpc] at hplace
    obtain ⟨hnil, hnil'⟩ := hquiet hplace.1
    exact ⟨⟨hnil, hnil', hplace.1.pending⟩, hplace.2⟩
  | ready c =>
    rw [hpc] at hplace
    obtain ⟨hnil, hnil'⟩ := hquiet hplace
    exact ⟨hnil, hnil', hplace.pending⟩
  | waiting c =>
    -- Only here is there anything to lose.
    rw [hpc] at hplace
    refine ⟨fun f hf => hplace.data f (hdata.subset hf), fun f hf => hplace.acks f (hacks.subset hf),
      ?_, fun hp => ⟨(hplace.pending hp).stamp, (hplace.pending hp).devId⟩⟩
    have := hplace.one
    have := hdata.length_le
    have := hacks.length_le
    show data.length + acks.length + s.pending.toNat ≤ 1
    omega
  | woken c =>
    rw [hpc] at hplace
    obtain ⟨hnil, hnil'⟩ := hquiet hplace.1
    exact ⟨⟨hnil, hnil', hplace.1.pending⟩, hplace.2.stamp, hplace.2.devId⟩

/-- What the receiver holds has no part in whether the link is prompt. -/
theorem PromptOk.receiver (h : PromptOk s) (w : World) : PromptOk { s with receiver := w } :=
  h.lose (List.Sublist.refl _) (List.Sublist.refl _) w

/-- Every step of the link that is not a call or a timeout keeps the invariant. -/
theorem promptOk_step {e : LinkEvent} (h : LinkInv (shadow s r a) k)
    (hkeeps : Keeps r s.receiver got) (hp : PromptOk s) (hcall : ∀ data, e ≠ .call data)
    (htime : e ≠ .timeout) (hstep : linkStep s e = some s') : PromptOk s' := by
  cases e with
  | call data => exact absurd rfl (hcall data)
  | timeout => exact absurd rfl htime
  | wake => exact promptOk_wake h hp hstep
  | deliver => exact promptOk_deliver h hkeeps hp hstep
  | takeAnswer => exact promptOk_takeAnswer h hp hstep
  | send =>
    obtain ⟨c, hpc, rfl⟩ := linkStep_send.mp hstep
    obtain ⟨hstart, hplace⟩ := hp
    rw [hpc] at hplace
    -- The line was quiet, so the new frame is alone on it.
    refine ⟨hstart, fun f hf => ?_, fun f hf => ?_, ?_, fun hpend => ?_⟩
    · rw [hplace.data, List.nil_append, List.mem_singleton] at hf
      rw [hf]
    · rw [hplace.acks] at hf
      exact absurd hf List.not_mem_nil
    · simp [hplace.data, hplace.acks, hplace.pending]
    · exact absurd (hplace.pending.symm.trans hpend) (by decide)
  | signal =>
    obtain ⟨hpending, hcases⟩ := linkStep_signal.mp hstep
    -- Nothing is to be signalled unless the sender waits.
    have hbusy : ¬ Quiet s := fun hq => absurd (hq.pending.symm.trans hpending) (by decide)
    obtain ⟨hstart, ⟨c, hwaiting⟩, halone⟩ := hp.waiting hbusy
    rcases hcases with ⟨c', _, rfl⟩ | ⟨⟨c', hpc⟩ | ⟨ret, hpc⟩, _⟩
    · have hone := halone.one
      rw [hpending, Bool.toNat_true] at hone
      have hdata : s.dataLine = [] := List.eq_nil_of_length_eq_zero (by omega)
      have hacks : s.ackLine = [] := List.eq_nil_of_length_eq_zero (by omega)
      exact ⟨hstart, ⟨hdata, hacks, rfl⟩, (halone.pending hpending).stamp,
        (halone.pending hpending).devId⟩
    · cases hwaiting.symm.trans hpc
    · cases hwaiting.symm.trans hpc
  | loseData i =>
    obtain ⟨_, rfl⟩ := linkStep_loseData.mp hstep
    exact hp.lose (List.eraseIdx_sublist _ _) (List.Sublist.refl _) _
  | loseAnswer i =>
    obtain ⟨_, rfl⟩ := linkStep_loseAnswer.mp hstep
    exact hp.lose (List.Sublist.refl _) (List.eraseIdx_sublist _ _) _

/-- The next call begins on a quiet line. -/
theorem promptOk_called (hp : PromptOk s) {ret : Option Int} (hpc : s.pc = .returned ret)
    (data : List Byte) : PromptOk (called s data) := by
  obtain ⟨_, hplace⟩ := hp
  rw [hpc] at hplace
  exact ⟨Nat.le_refl _, hplace.1.data, hplace.1.acks, hplace.1.pending⟩

/-! ### The two boards -/

/-- What a message does to the link: nothing. -/
theorem sayStep_link {t t' : System} {m : App.Messages.AppMessage} {mallocOk dataOk : Bool}
    (h : sayStep t m mallocOk dataOk = some t') : t'.link = t.link ∧ t'.failed = t.failed := by
  obtain ⟨sending, _, h⟩ := Option.bind_eq_some_iff.mp h
  cases sending with
  | returned ret =>
    rw [← Option.some.inj h]
    exact ⟨rfl, rfl⟩
  | item dst buf =>
    dsimp only at h
    split at h
    · obtain ⟨tx, _, h⟩ := Option.bind_eq_some_iff.mp h
      rw [← Option.some.inj h]
      exact ⟨rfl, rfl⟩
    · cases h

/-- The receiving board changes its own state alone. -/
theorem eventsStep_link {t t' : System} (h : eventsStep t = some t') :
    (∃ w, t'.link = { t.link with receiver := w }) ∧ t'.failed = t.failed := by
  unfold eventsStep at h
  split at h
  · obtain ⟨w, _, h⟩ := Option.bind_eq_some_iff.mp h
    rw [← Option.some.inj h]
    exact ⟨⟨_, rfl⟩, rfl⟩
  · obtain ⟨w, _, h⟩ := Option.bind_eq_some_iff.mp h
    rw [← Option.some.inj h]
    exact ⟨⟨_, rfl⟩, rfl⟩
  · obtain ⟨⟨w, found⟩, _, h⟩ := Option.bind_eq_some_iff.mp h
    cases found with
    | none =>
      rw [← Option.some.inj h]
      exact ⟨⟨_, rfl⟩, rfl⟩
    | some p =>
      obtain ⟨n, _, h⟩ := Option.bind_eq_some_iff.mp h
      rw [← Option.some.inj h]
      exact ⟨⟨_, rfl⟩, rfl⟩

/-- A step of `thread_tx` keeps the invariant, and the call that has ended returned 0. -/
theorem promptOk_threadTx {t t' : System} (hp : PromptOk t.link) (hf : t.failed = false)
    (h : threadTxSystem t = some t') : PromptOk t'.link ∧ t'.failed = false := by
  unfold threadTxSystem at h
  split at h
  · split at h
    · rename_i ret hret
      obtain ⟨_, hplace⟩ := id hp
      rw [hret] at hplace
      -- A call that returns has returned 0, so `failed` stays.
      have hzero : ret = 0 := by simpa using hplace.2
      obtain ⟨tx, _, h⟩ := Option.bind_eq_some_iff.mp h
      rw [← Option.some.inj h]
      exact ⟨hp, by simp [hf, hzero]⟩
    · cases h
  · obtain ⟨tx, _, h⟩ := Option.bind_eq_some_iff.mp h
    cases htx : tx.pc with
    | transmit idx p =>
      simp only [htx] at h
      obtain ⟨n, _, h⟩ := Option.bind_eq_some_iff.mp h
      obtain ⟨l, hl, h⟩ := Option.bind_eq_some_iff.mp h
      obtain ⟨⟨ret, hret⟩, _, rfl⟩ := linkStep_call.mp hl
      rw [← Option.some.inj h]
      exact ⟨promptOk_called hp hret n.data, hf⟩
    | _ =>
      simp only [htx] at h
      rw [← Option.some.inj h]
      exact ⟨hp, hf⟩

/-- The invariant of the two boards in a run without timeouts. -/
structure PromptInv (t : System) : Prop where
  system : SystemInv t
  prompt : PromptOk t.link
  good : t.failed = false

/-- The invariant holds at the start. -/
theorem promptInv_init : PromptInv System.init :=
  ⟨systemInv_init, ⟨Nat.le_refl 0, ⟨rfl, rfl, rfl⟩, Or.inl rfl⟩, rfl⟩

/-- No step is one that a stale frame makes go wrong. -/
theorem PromptInv.fresh {t : System} (h : PromptInv t) (e : SystemEvent) : NotStaleLink t e := by
  cases e with
  | link e => exact h.prompt.notStale e
  | _ => trivial

/-- A step in time keeps the invariant. -/
theorem promptInv_step {t t' : System} {e : SystemEvent} (h : PromptInv t) (hok : InTime t e)
    (hstep : systemStep t e = some t') : PromptInv t' := by
  have hinv : SystemInv t' := systemInv_step h.system (h.fresh e) hstep
  cases e with
  | say m mallocOk dataOk =>
    obtain ⟨hlink, hfailed⟩ := sayStep_link hstep
    exact ⟨hinv, hlink ▸ h.prompt, hfailed.trans h.good⟩
  | threadTx =>
    obtain ⟨hprompt, hgood⟩ := promptOk_threadTx h.prompt h.good hstep
    exact ⟨hinv, hprompt, hgood⟩
  | events =>
    obtain ⟨⟨w, hlink⟩, hfailed⟩ := eventsStep_link hstep
    exact ⟨hinv, hlink ▸ h.prompt.receiver w, hfailed.trans h.good⟩
  | link e =>
    have hcall : ∀ data, e ≠ .call data := by
      rintro data rfl
      cases hstep
    have htime : e ≠ .timeout := by
      rintro rfl
      exact hok
    obtain ⟨l, hl, ht'⟩ := systemStep_link hcall hstep
    obtain ⟨_, r, a, k, got, front, sub, htold⟩ := h.system
    rw [ht'] at hinv ⊢
    exact ⟨hinv, promptOk_step htold.link htold.keeps h.prompt hcall htime hl, h.good⟩

/-- In every run of the two boards in which no wait for an answer times out, no frame is stale, no
call of `tx_data_info` fails, and the handlers are called for what was said, in order, while every
message that has not been handled is still in a list or in the running call. -/
theorem in_time_nothing_lost (es : List SystemEvent) (t : System)
    (h : system.Run InTime es t) :
    (∀ e, NotStaleLink t e) ∧ t.failed = false ∧ HandledInOrder t := by
  have hinv : PromptInv t :=
    h.invariant (I := PromptInv) promptInv_init fun _ _ _ hok ht hstep => promptInv_step ht hok hstep
  exact ⟨hinv.fresh, hinv.good, hinv.system.handledInOrder⟩

/-- A backlight that is set and a refused one. -/
def dim : List SystemEvent :=
  [.say (.lcdBacklight 0 10) true true, .say (.lcdBacklight 0 9) true true, .threadTx, .threadTx]
    ++ ([.send, .deliver, .takeAnswer, .signal, .wake, .send, .deliver, .takeAnswer, .signal,
      .wake].map SystemEvent.link)
    ++ List.replicate 12 .threadTx ++ [.events, .events]

/-- At its end the handler has been called, and `thread_tx` sleeps. -/
theorem in_time_nothing_lost_dim :
    ∃ t, system.Run InTime dim t ∧ t.tx.pc = .idle ∧ t.handled = [some (.handleLcdBl 0 9)] ∧
      (∀ e, NotStaleLink t e) ∧ t.failed = false ∧ HandledInOrder t := by
  have heval : (system.execOk InTime dim).map (fun t => (t.tx.pc, t.handled))
      = some (.idle, [some (.handleLcdBl 0 9)]) := by
    decide +kernel
  obtain ⟨t, ht, hend⟩ := Option.map_eq_some_iff.mp heval
  obtain ⟨hpc, hhandled⟩ := Prod.mk.inj hend
  have hrun := Machine.Run.of_execOk ht
  exact ⟨t, hrun, hpc, hhandled, in_time_nothing_lost _ t hrun⟩

end LearnGit.Proofs.Uart
