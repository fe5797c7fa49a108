import LearnGit.Proofs.Uart.ThreadTx
import LearnGit.Uart.App.ExtendedCmd

/-!
# `LearnGit.Proofs.Uart.ExtendedCmd`: an extended command comes as it was sent

`sendCmd_roundTrips_iff`: in every state of the link layer, the data block of an extended command
comes to the callback with its length exactly where it has fewer than 256 bytes, or else the send
fails for want of memory. `cmd_len` is a byte, and a longer block is sent with a length that is cut.
-/

set_option autoImplicit false

namespace LearnGit.Proofs.Uart

open LearnGit.Lib
open LearnGit.Uart.Link
open LearnGit.Uart.App

/-! ### Statement -/

/-- Which of the two sides sends. -/
inductive Side where
  | mainBoard
  | extBoard
  deriving DecidableEq, Repr

/-- `app_main_send_cmd` or `app_extern_send_cmd`. -/
def Side.send : Side → World → CmdMemory → Byte → Byte → Option DataBlock → Option (World × Int)
  | .mainBoard => appMainSendCmd
  | .extBoard => appExternSendCmd

/-- The `cmd_tlv` has the command, the length of the block and the block. -/
structure Handed (pcmd : List Byte) (cmd : Byte) (block : List Byte) : Prop where
  cmd : pcmd[0]? = some cmd
  cmdLen : pcmd[1]?.map UInt8.toNat = some block.length
  value : (pcmd.drop 2).take block.length = block

/-- The send queues an item that comes to the callback, or reports an error and queues nothing. -/
def RoundTrips (side : Side) (w : World) (mem : CmdMemory) (dst : Fin MAX_EXTBOARD) (cmd : Byte)
    (pdata : Option DataBlock) : Prop :=
  (∃ ret, side.send w mem (UInt8.ofNat dst) cmd pdata = some (w, ret) ∧ ret < 0) ∨
    ∃ w' item pcmd, side.send w mem (UInt8.ofNat dst) cmd pdata = some (w', 0) ∧
      txQueue w' dst = txQueue w dst ++ [(w.brk, ⟨dst, item⟩)] ∧
      (∀ devId, dealwithCmdCalls true devId item = some [pcmd]) ∧ Handed pcmd cmd (blockBytes pdata)

/-- A `malloc` of the call fails: there is no memory, or the size is not an `int`. -/
def MallocFails (mem : CmdMemory) (n : Nat) : Prop :=
  mem.pbufOk = false ∨ 2 ^ 31 ≤ SIZEOF_PCMD_TLV + n + 2 ∨ mem.mallocOk = false ∨ mem.dataOk = false

/-! ### The item -/

/-- The bytes in front of an extended command. -/
def Side.code : Side → Byte
  | .mainBoard => 0x80 ||| AppCmd.m2eCmd.code
  | .extBoard => AppCmd.e2mCmd.code

/-- Both senders are one function, each with its own code. -/
theorem Side.send_eq (side : Side) : side.send = sendCmd side.code := by
  cases side <;> rfl

/-- `app_proto_process` hands on what stands behind the first byte. -/
theorem dealwithCmdCalls_item (side : Side) (devId : Nat) (cmd len : Byte) (value : List Byte) :
    dealwithCmdCalls true devId (side.code :: cmd :: len :: value) = some [cmd :: len :: value] := by
  cases side <;> rfl

/-- The `cmd_tlv` of a block has its length where that is a byte. -/
theorem handed_iff (cmd : Byte) (block rest : List Byte) :
    Handed (cmd :: UInt8.ofNat block.length :: (block ++ rest)) cmd block ↔ block.length < 256 := by
  have hlen : (UInt8.ofNat block.length).toNat = block.length % 256 := UInt8.toNat_ofNat'
  constructor
  · intro h
    have hcut : block.length % 256 = block.length := by
      have hsome := h.cmdLen
      rw [List.getElem?_cons_succ, List.getElem?_cons_zero, Option.map_some, hlen] at hsome
      exact Option.some.inj hsome
    omega
  · intro h
    refine ⟨rfl, ?_, ?_⟩
    · rw [List.getElem?_cons_succ, List.getElem?_cons_zero, Option.map_some, hlen,
        Nat.mod_eq_of_lt h]
    · exact List.take_left

/-! ### The send -/

/-- A block has fewer than 2^31 bytes. -/
theorem blockBytes_lt (pdata : Option DataBlock) : (blockBytes pdata).length < 2 ^ 31 := by
  cases pdata with
  | none => decide
  | some block => exact block.fits

/-- A length that is an `int` is ten bytes more than the value's. -/
theorem dataLen_of_lt {n : Nat} (h : SIZEOF_PCMD_TLV + n + 2 < 2 ^ 31) :
    toInt32 (SIZEOF_PCMD_TLV + n + 2) = ((n + 10 : Nat) : Int) := by
  rw [toInt32_of_lt h, SIZEOF_PCMD_TLV]
  omega

/-- A length that does not fit an `int` gets negative. -/
theorem dataLen_of_ge {n : Nat} (hn : n < 2 ^ 31) (h : 2 ^ 31 ≤ SIZEOF_PCMD_TLV + n + 2) :
    toInt32 (SIZEOF_PCMD_TLV + n + 2) < 0 := by
  rw [SIZEOF_PCMD_TLV] at h ⊢
  rw [toInt32, BitVec.toInt_ofNat', Int.bmod_def]
  omega

/-- The item of a block that fits. -/
def cmdItem (code cmd : Byte) (value : List Byte) : List Byte :=
  code :: cmd :: UInt8.ofNat value.length :: (value ++ List.replicate 7 0)

/-- The buffer of the exact length holds the command. -/
theorem cmdBuffer_eq (code cmd : Byte) (value : List Byte) :
    cmdBuffer code cmd value (value.length + 10) = some (cmdItem code cmd value) := by
  have hpad : value.length + 10 - (3 + value.length) = 7 := by omega
  rw [cmdBuffer, if_pos (by omega), hpad, cmdItem]

/-- A send whose buffer is there. -/
theorem sendCmd_eq {mem : CmdMemory} {pdata : Option DataBlock} (hpbuf : mem.pbufOk = true)
    (hlen : SIZEOF_PCMD_TLV + (blockBytes pdata).length + 2 < 2 ^ 31) (code : Byte) (w : World)
    (devId cmd : Byte) :
    sendCmd code w mem devId cmd pdata
      = (linkSend w mem.mallocOk mem.dataOk devId.toNat
          (some (cmdItem code cmd (blockBytes pdata)))).map
            fun r => (r.1, if r.2 < 0 then r.2 else 0) := by
  have hroom : ¬(toInt32 (SIZEOF_PCMD_TLV + (blockBytes pdata).length + 2) < 0
      ∨ mem.pbufOk = false) := by
    rw [dataLen_of_lt hlen, hpbuf]
    rintro (hneg | hfalse)
    · omega
    · cases hfalse
  rw [sendCmd, if_neg hroom]
  simp only [dataLen_of_lt hlen, Int.toNat_natCast, cmdBuffer_eq, Option.bind_eq_bind,
    Option.bind_some]
  cases linkSend w mem.mallocOk mem.dataOk devId.toNat
    (some (cmdItem code cmd (blockBytes pdata))) <;> rfl

/-- Without memory the send reports an error and queues nothing. -/
theorem sendCmd_fails {mem : CmdMemory} {pdata : Option DataBlock}
    (h : MallocFails mem (blockBytes pdata).length) (code : Byte) (w : World) (devId cmd : Byte) :
    ∃ ret, sendCmd code w mem devId cmd pdata = some (w, ret) ∧ ret < 0 := by
  by_cases hpbuf : mem.pbufOk = false
  · exact ⟨-1, by rw [sendCmd, if_pos (.inr hpbuf)], by decide⟩
  by_cases hlen : 2 ^ 31 ≤ SIZEOF_PCMD_TLV + (blockBytes pdata).length + 2
  · exact ⟨-1, by rw [sendCmd, if_pos (.inl (dataLen_of_ge (blockBytes_lt pdata) hlen))], by decide⟩
  have hempty : ¬(cmdItem code cmd (blockBytes pdata)).length = 0 := by simp [cmdItem]
  rw [sendCmd_eq (by simpa using hpbuf) (by omega)]
  -- The two allocations of `link_send` are left.
  cases hmalloc : mem.mallocOk with
  | false => exact ⟨-1, by simp [linkSend, hempty], by decide⟩
  | true =>
    have hdata : mem.dataOk = false := by
      rcases h with h | h | h | h
      · exact absurd h hpbuf
      · exact absurd h hlen
      · rw [hmalloc] at h
        cases h
      · exact h
    exact ⟨-2, by simp [linkSend, hempty, hdata], by decide⟩

/-- With memory the item is queued. -/
theorem sendCmd_queues {s : TxState} {q : Nat → List Ptr} (hinv : TxInv s q) {mem : CmdMemory}
    {pdata : Option DataBlock} (h : ¬MallocFails mem (blockBytes pdata).length) (code : Byte)
    (dst : Fin MAX_EXTBOARD) (cmd : Byte) :
    ∃ w', sendCmd code s.world mem (UInt8.ofNat dst) cmd pdata = some (w', 0) ∧
      txQueue w' dst = txQueue s.world dst
        ++ [(s.world.brk, ⟨dst, cmdItem code cmd (blockBytes pdata)⟩)] := by
  simp only [MallocFails, not_or, Bool.not_eq_false, Nat.not_le] at h
  obtain ⟨hpbuf, hlen, hmalloc, hdata⟩ := h
  have hdst : (UInt8.ofNat dst.val).toNat = dst.val := by
    have hlt : dst.val < 256 := Nat.lt_of_lt_of_le dst.isLt (by decide)
    rw [UInt8.toNat_ofNat', Nat.mod_eq_of_lt hlt]
  have hempty : ¬(cmdItem code cmd (blockBytes pdata)).length = 0 := by simp [cmdItem]
  obtain ⟨w', hsend, hlists, -, -, -, hitem, hitems⟩ :=
    linkSend_appends hinv.lists (hinv.unlocked .txList) dst hempty
  refine ⟨w', ?_, ?_⟩
  · rw [sendCmd_eq hpbuf hlen, hmalloc, hdata, hdst, hsend]
    rfl
  · -- The nodes that were on the list are older than the new one, and keep their items.
    have hold : (q dst.val).filterMap (entryAt w'.heap)
        = (q dst.val).filterMap (entryAt s.world.heap) := by
      refine filterMap_entryAt_congr fun p hp => hitems p ?_
      exact Nat.ne_of_lt (hinv.lists.lt_brk ((hinv.lists.lists dst.val dst.isLt).own p hp))
    rw [hlists.txQueue_eq dst.isLt, hinv.lists.txQueue_eq dst.isLt, Function.update_self,
      List.filterMap_append, hold]
    simp [entryAt, hitem]

/-- In every reachable state a command is handled as it was sent exactly where its block has fewer
than 256 bytes or there is no memory for it. -/
theorem TxInv.cmd_roundTrips {s : TxState} {q : Nat → List Ptr} (hinv : TxInv s q) (side : Side)
    (mem : CmdMemory) (dst : Fin MAX_EXTBOARD) (cmd : Byte) (pdata : Option DataBlock) :
    RoundTrips side s.world mem dst cmd pdata ↔
      (blockBytes pdata).length < 256 ∨ MallocFails mem (blockBytes pdata).length := by
  rw [RoundTrips, side.send_eq]
  by_cases hfails : MallocFails mem (blockBytes pdata).length
  · exact iff_of_true (.inl (sendCmd_fails hfails _ _ _ _)) (.inr hfails)
  · obtain ⟨w', hsend, hqueue⟩ := sendCmd_queues hinv hfails side.code dst cmd
    -- The item is queued, so all depends on the `cmd_tlv` in it.
    rw [or_iff_left hfails, ← handed_iff cmd (blockBytes pdata) (List.replicate 7 0), hsend]
    constructor
    · rintro (⟨ret, hret, hneg⟩ | ⟨w'', item, pcmd, hsame, hlast, hcalls, hhanded⟩)
      · have hzero : (0 : Int) = ret := (Prod.mk.inj (Option.some.inj hret)).2
        omega
      · have hw : w' = w'' := (Prod.mk.inj (Option.some.inj hsame)).1
        rw [← hw, hqueue] at hlast
        have hitem : cmdItem side.code cmd (blockBytes pdata) = item := by
          simpa using List.append_cancel_left hlast
        have hcall := hcalls 0
        rw [← hitem, cmdItem, dealwithCmdCalls_item] at hcall
        have hpcmd := List.head_eq_of_cons_eq (Option.some.inj hcall)
        rwa [hpcmd]
    · intro hhanded
      refine .inr ⟨w', _, _, rfl, hqueue, fun devId => ?_, hhanded⟩
      exact dealwithCmdCalls_item side devId cmd _ _

/-- In every state of the link layer: the block comes to the callback, with its length, if and only
if it has fewer than 256 bytes; and without memory the send reports an error. -/
theorem sendCmd_roundTrips_iff (es : List TxEvent) (s : TxState) (h : txMachine.exec es = some s)
    (side : Side) (mem : CmdMemory) (dst : Fin MAX_EXTBOARD) (cmd : Byte)
    (pdata : Option DataBlock) :
    RoundTrips side s.world mem dst cmd pdata ↔
      (blockBytes pdata).length < 256 ∨ MallocFails mem (blockBytes pdata).length := by
  obtain ⟨q, hinv⟩ := exists_txInv h
  exact hinv.cmd_roundTrips side mem dst cmd pdata

/-- A block of two bytes for board 1, when nothing is queued. -/
theorem sendCmd_roundTrips_two :
    RoundTrips .mainBoard World.init ⟨true, true, true⟩ ⟨1, by decide⟩ 0 (some ⟨[5, 6], by decide⟩) :=
  (sendCmd_roundTrips_iff [] TxState.init rfl .mainBoard ⟨true, true, true⟩ ⟨1, by decide⟩ 0
    (some ⟨[5, 6], by decide⟩)).mpr (.inl (by decide))

/-- 256 zeros. -/
def zeros256 : DataBlock where
  bytes := List.replicate 256 0
  fits := by
    rw [List.length_replicate]
    decide

/-- A block of 256 bytes is queued with the length 0. -/
theorem not_roundTrips_256 :
    ¬RoundTrips .mainBoard World.init ⟨true, true, true⟩ ⟨1, by decide⟩ 0 (some zeros256) := by
  have hlen : (blockBytes (some zeros256)).length = 256 := List.length_replicate
  intro h
  have hcond := (txInv_init.cmd_roundTrips _ _ _ _ _).mp h
  rw [hlen] at hcond
  rcases hcond with hlt | hpbuf | hbig | hmalloc | hdata
  · exact absurd hlt (by decide)
  · cases hpbuf
  · exact absurd hbig (by decide)
  · cases hmalloc
  · cases hdata

end LearnGit.Proofs.Uart
