import LearnGit.Lib.Bytes
import LearnGit.Uart.App.AppProto
import LearnGit.Uart.Link.World

/-!
# `LearnGit.Uart.App.ExtendedCmd`: extended commands

`app_main_send_cmd` and `app_extern_send_cmd` build an item of a command, its length and its value,
and give it to `link_send`. They differ in the first byte: the main board sends `m2e_cmd` as an
answer, and an extern board sends `e2m_cmd` as a request. On the other side
`app_proto_process` gives the item without its first byte to the callback, as a `cmd_tlv`.

The result of a send is `none` where `memcpy` writes behind the buffer, or where `link_send` does
not return.
-/

set_option autoImplicit false

namespace LearnGit.Uart.App

open LearnGit.Lib
open LearnGit.Uart.Link (Byte World linkSend)

/-! ### Sending -/

/-- `sizeof(pcmd_tlv)`, which is the size of a pointer. -/
def SIZEOF_PCMD_TLV : Nat := 8

/-- The outcomes of `malloc` in a call: of `pbuf`, and of the two buffers of `link_send`. -/
structure CmdMemory where
  pbufOk : Bool
  mallocOk : Bool
  dataOk : Bool
  deriving DecidableEq, Repr

/-- A data block. `pdata_len` is an `int`. -/
structure DataBlock where
  bytes : List Byte
  fits : bytes.length < 2 ^ 31

/-- The bytes behind `pdata`, of which a null pointer has none. -/
def blockBytes (pdata : Option DataBlock) : List Byte := (pdata.map DataBlock.bytes).getD []

/-- `pbuf`: a zeroed buffer of `dataLen` bytes, with the command and the `cmd_tlv` in front. The
length of the value is cut to a byte. -/
def cmdBuffer (code cmd : Byte) (value : List Byte) (dataLen : Nat) : Option (List Byte) :=
  if 3 + value.length ≤ dataLen then
    some (code :: cmd :: UInt8.ofNat value.length
      :: (value ++ List.replicate (dataLen - (3 + value.length)) 0))
  else none

/-- A send with this first byte: the link layer behind it, and the return value. -/
def sendCmd (code : Byte) (w : World) (mem : CmdMemory) (devId cmd : Byte)
    (pdata : Option DataBlock) : Option (World × Int) :=
  let value := blockBytes pdata
  let dataLen := toInt32 (SIZEOF_PCMD_TLV + value.length + 2)
  -- A negative length is a size for which `malloc` returns a null pointer.
  if dataLen < 0 ∨ mem.pbufOk = false then some (w, -1)
  else do
    let pbuf ← cmdBuffer code cmd value dataLen.toNat
    let (w, ret) ← linkSend w mem.mallocOk mem.dataOk devId.toNat (some pbuf)
    return (w, if ret < 0 then ret else 0)

/-- `app_main_send_cmd`. -/
def appMainSendCmd : World → CmdMemory → Byte → Byte → Option DataBlock → Option (World × Int) :=
  sendCmd (0x80 ||| AppCmd.m2eCmd.code)

/-- `app_extern_send_cmd`. -/
def appExternSendCmd : World → CmdMemory → Byte → Byte → Option DataBlock → Option (World × Int) :=
  sendCmd AppCmd.e2mCmd.code

/-! ### Receiving -/

/-- `handle_expend_cmd`: the calls of `to_gui_dealwith_cmd`, each with the bytes its argument points
to, and the return value. -/
def handleExpendCmd (toGuiDealwithCmd : Bool) (pcmd : List Byte) : List (List Byte) × Int :=
  if toGuiDealwithCmd then ([pcmd], 0) else ([], -1)

/-- The calls of `to_gui_dealwith_cmd` when `app_proto_process` is given an item. -/
def dealwithCmdCalls (toGuiDealwithCmd : Bool) (devId : Nat) (data : List Byte) :
    Option (List (List Byte)) := do
  match ← dispatch devId data with
  | .handleExpendCmd pcmd => some (handleExpendCmd toGuiDealwithCmd pcmd).1
  | _ => some []

end LearnGit.Uart.App
