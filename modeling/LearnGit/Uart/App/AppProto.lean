import LearnGit.Uart.Link.Packet

/-!
# `LearnGit.Uart.App.AppProto`: the messages of the application layer

The commands of `app_proto.h` and the decoding in `app_proto_process`: which handler a received
item is given to, and with which arguments. The first byte of an item is the command, with the
bit 0x80 set in an answer, and the two cases have a `switch` each.

The result is `none` where the decoding reads outside the item, where a length computed from it
wraps below zero, or where a copy does not fit its destination.
-/

set_option autoImplicit false

namespace LearnGit.Uart.App

open LearnGit.Uart.Link (Byte)

def MAX_PATH_LENGTH : Nat := 512

def TRANS_START : Byte := 0x0F
def TRANS_CONTINUE : Byte := 0xF0
def TRANS_END : Byte := 0xF1

/-- `app_cmd_t`. -/
inductive AppCmd where
  | e2mLogin
  | e2mReqBcf
  | e2mReqBlf
  | e2mReqImage
  | e2mSendKey
  | m2eSendStat
  | m2eSendBlk
  | m2eResetEx
  | m2eUpFw
  | m2eSendImage
  | m2eSendLcdBacklight
  | m2eSendLedInfo
  | e2mAskStatus
  | m2eCmd
  | e2mCmd
  deriving DecidableEq, Repr

namespace AppCmd

/-- The value of the enumerator. -/
def code : AppCmd → Byte
  | .e2mLogin => 1
  | .e2mReqBcf => 2
  | .e2mReqBlf => 3
  | .e2mReqImage => 4
  | .e2mSendKey => 5
  | .m2eSendStat => 6
  | .m2eSendBlk => 7
  | .m2eResetEx => 8
  | .m2eUpFw => 9
  | .m2eSendImage => 10
  | .m2eSendLcdBacklight => 11
  | .m2eSendLedInfo => 12
  | .e2mAskStatus => 13
  | .m2eCmd => 14
  | .e2mCmd => 15

/-- The commands in the order of their values. -/
def all : List AppCmd :=
  [.e2mLogin, .e2mReqBcf, .e2mReqBlf, .e2mReqImage, .e2mSendKey, .m2eSendStat, .m2eSendBlk,
    .m2eResetEx, .m2eUpFw, .m2eSendImage, .m2eSendLcdBacklight, .m2eSendLedInfo, .e2mAskStatus,
    .m2eCmd, .e2mCmd]

def ofCode (code : Byte) : Option AppCmd := all.find? fun cmd => cmd.code = code

end AppCmd

/-- `app_proto_fixed_file_t`. `len_content` is the length of `content`. -/
structure FixedFile where
  flagCs : Byte
  content : List Byte
  deriving DecidableEq, Repr

/-- `app_proto_ack_image_t`. `len_name` and `len_content` are the lengths. -/
structure AckImage where
  flagCl : Byte
  flagCs : Byte
  imageName : List Byte
  content : List Byte
  deriving DecidableEq, Repr

/-- The call that `app_proto_process` makes for an item. `ignored` is no call. -/
inductive AppCall where
  | handleLogin (devId : Nat) (protoVersion fwVersion infoReserved : Byte)
  | handleReqBcf (devId : Nat)
  | handleReqBlf (devId : Nat)
  | handleReqImage (devId : Nat) (flag : Byte) (imageName : List Byte)
  | handleSendKey (devId : Nat) (keyId info : Byte)
  | handleSendStatus (keyId status : Byte)
  | handleSendBlf (blf : FixedFile)
  | handleReset
  | handleUpgradeFw (fw : FixedFile)
  | handleSendImage (aImage : AckImage)
  | noticeAppExtAskKeyStatus (devId : Nat)
  | handleExpendCmd (pcmd : List Byte)
  | handleAckLogin (bckVersion reserved : Byte)
  | handleAckReqBcf (bcf : FixedFile)
  | handleAckReqBlf (blf : FixedFile)
  | handleAckReqImage (aImage : AckImage)
  | handleLcdBl (lcdType lcdBlValue : Byte)
  | handleLedStatus (ledNum ledColor ledTwinkle ledInterval : Byte)
  | ignored
  deriving DecidableEq, Repr

/-- The flag and the content behind it: `len_content = length - 2`. -/
def fixedFile (data : List Byte) : Option FixedFile := do
  let flagCs ← data[1]?
  return ⟨flagCs, data.drop 2⟩

/-- The name, whose length is a byte of its own, and the content behind it:
`len_content = length - len_name - 3`. -/
def imageFields (data : List Byte) : Option (List Byte × List Byte) := do
  let lenName ← data[2]?
  if lenName.toNat + 3 ≤ data.length then
    return ((data.drop 3).take lenName.toNat, data.drop (3 + lenName.toNat))
  else none

/-- The first `switch` of `app_proto_process`, on a request. `e2m_cmd` falls through to
`default`, which does nothing more. -/
def dispatchRequest (devId : Nat) (data : List Byte) : Option AppCmd → Option AppCall
  | some .e2mLogin => do
    return .handleLogin devId (← data[1]?) (← data[2]?) (← data[3]?)
  | some .e2mReqBcf => some (.handleReqBcf devId)
  | some .e2mReqBlf => some (.handleReqBlf devId)
  | some .e2mReqImage => do
    let flag ← data[1]?
    if data.length - 2 ≤ MAX_PATH_LENGTH then
      return .handleReqImage devId flag (data.drop 2)
    else none
  | some .e2mSendKey => do return .handleSendKey devId (← data[1]?) (← data[2]?)
  | some .m2eSendStat => do return .handleSendStatus (← data[1]?) (← data[2]?)
  | some .m2eSendBlk => (fixedFile data).map .handleSendBlf
  | some .m2eResetEx => some .handleReset
  | some .m2eUpFw => (fixedFile data).map .handleUpgradeFw
  | some .m2eSendImage => do
    let flagCs ← data[1]?
    let (imageName, content) ← imageFields data
    return .handleSendImage ⟨0, flagCs, imageName, content⟩
  | some .e2mAskStatus => some (.noticeAppExtAskKeyStatus devId)
  | some .e2mCmd => do
    let _cmdLen ← data[2]?
    return .handleExpendCmd (data.drop 1)
  | some .m2eSendLcdBacklight | some .m2eSendLedInfo | some .m2eCmd | none => some .ignored

/-- The second `switch` of `app_proto_process`, on an answer. The cases from `e2m_send_key` to
`m2e_reset_ex` have no `break` and fall through to `m2e_up_fw`, and `m2e_send_image` falls
through to `m2e_cmd`. -/
def dispatchAck (data : List Byte) : Option AppCmd → Option AppCall
  | some .e2mLogin => do return .handleAckLogin (← data[1]?) (← data[2]?)
  | some .e2mReqBcf => (fixedFile data).map .handleAckReqBcf
  | some .e2mReqBlf => (fixedFile data).map .handleAckReqBlf
  | some .e2mReqImage => do
    let flags ← data[1]?
    let (imageName, content) ← imageFields data
    return .handleAckReqImage ⟨(flags >>> 4) &&& 0x0F, flags &&& 0x0F, imageName, content⟩
  | some .m2eSendLcdBacklight => do return .handleLcdBl (← data[1]?) (← data[2]?)
  | some .m2eSendLedInfo => do
    return .handleLedStatus (← data[1]?) (← data[2]?) (← data[3]?) (← data[4]?)
  | some .e2mSendKey | some .m2eSendStat | some .m2eSendBlk | some .m2eResetEx
  | some .m2eUpFw => (fixedFile data).map .handleUpgradeFw
  | some .m2eSendImage | some .m2eCmd => some (.handleExpendCmd (data.drop 1))
  | some .e2mAskStatus | some .e2mCmd | none => some .ignored

/-- The decoding of `app_proto_process`. -/
def dispatch (devId : Nat) (data : List Byte) : Option AppCall := do
  let cmd ← data[0]?
  if cmd &&& 0x80 = 0x80 then dispatchAck data (AppCmd.ofCode (cmd &&& 0x7F))
  else dispatchRequest devId data (AppCmd.ofCode cmd)

end LearnGit.Uart.App
