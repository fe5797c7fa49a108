import LearnGit.Uart.App.AppProto

/-!
# `LearnGit.Uart.App.Messages`: the messages of one item

The functions of `app_proto.c` that say something with one call of `link_send`. Each of them fills a
buffer, and some look at their arguments first. What is left is the same for all of them:
`Sending.run` makes the call and returns its value when it is negative, and 0 otherwise. It takes
`link_send` as an argument, since `Images.lean` runs `req_image` on a board without lists.

A name is given without its NUL. The transfers of files and of images, which send several items, are
in `FixedFile.lean` and `ImageTransfer.lean`, and the extended commands are in `ExtendedCmd.lean`.
-/

set_option autoImplicit false

namespace LearnGit.Uart.App.Messages

open LearnGit.Uart.Link (Byte)

/-- What a function does behind its checks: it gives an item to `link_send`, or it returns. -/
inductive Sending where
  | item (dst : Byte) (buf : List Byte)
  | returned (ret : Int)
  deriving DecidableEq, Repr

/-- The call of `link_send`, and the return value of the function. -/
def Sending.run {σ : Type} (linkSend : σ → Nat → List Byte → Option (σ × Int)) (s : σ) :
    Sending → Option (σ × Int)
  | .item dst buf => do
    let (s, ret) ← linkSend s dst.toNat buf
    return (s, if ret < 0 then ret else 0)
  | .returned ret => some (s, ret)

/-! ### From an extern board to the main board -/

/-- `login_to_mainboard`. -/
def loginToMainboard (protoVersion fwVersion : Byte) : Sending :=
  .item 0x01 [AppCmd.e2mLogin.code, protoVersion, fwVersion, 0xFF]

/-- `handle_ack_login`: the file is asked for when it is older than the one of the main board, or
when `access` does not find it. -/
def handleAckLogin (bcfVersion bckVersion : Byte) (found : Bool) : Sending :=
  if bckVersion > bcfVersion ∨ found = false then .item 0x01 [AppCmd.e2mReqBcf.code]
  else .returned 0

/-- `req_blf`. -/
def reqBlf : Sending := .item 0x01 [AppCmd.e2mReqBlf.code]

/-- `req_status_info`. -/
def reqStatusInfo : Sending := .item 0x01 [AppCmd.e2mAskStatus.code]

/-- `app_send_key`. -/
def appSendKey (keyId info : Byte) : Sending := .item 0x01 [AppCmd.e2mSendKey.code, keyId, info]

/-- `req_image`. The length of the name is an `unsigned char`. `none` is a copy that does not fit
the 128 bytes of the buffer. -/
def reqImage (name : List Byte) (flag : Byte) : Option Sending :=
  let len := name.length % 256
  if 2 + len ≤ 128 then some (.item 0x01 (AppCmd.e2mReqImage.code :: flag :: name.take len))
  else none

/-! ### From the main board to an extern board -/

/-- `app_send_status`. -/
def appSendStatus (devId keyId status : Byte) : Sending :=
  .item devId [AppCmd.m2eSendStat.code, keyId, status]

/-- `app_send_reset`. -/
def appSendReset (devId : Byte) : Sending := .item devId [AppCmd.m2eResetEx.code]

/-- `app_send_lcd_bl`. -/
def appSendLcdBl (devId lcdType lcdBl : Byte) : Sending :=
  if lcdType ≥ 2 then .returned (-1)
  else if lcdBl > 9 then .returned (-1)
  else .item devId [0x80 ||| AppCmd.m2eSendLcdBacklight.code, lcdType, lcdBl]

/-- `app_send_led_status`. -/
def appSendLedStatus (devId ledNum ledColor ledTwinkle ledInterval : Byte) : Sending :=
  if ledNum > 17 ∨ ledColor > 3 ∨ ledTwinkle > 1 ∨ ledInterval > 1 then .returned (-1)
  else .item devId
    [0x80 ||| AppCmd.m2eSendLedInfo.code, ledNum, ledColor, ledTwinkle, ledInterval]

/-! ### A call of one of them -/

/-- Any other item that a board gives to `link_send`. Its length is an `unsigned int`. -/
structure OtherItem where
  bytes : List Byte
  fits : bytes.length < 2 ^ 32

/-- A call of one of the functions, between the main board and the extern board with the device
number 1. -/
inductive AppMessage where
  | login (protoVersion fwVersion : Byte)
  | ackLogin (bcfVersion bckVersion : Byte) (found : Bool)
  | blf
  | statusInfo
  | key (keyId info : Byte)
  | image (name : List Byte) (flag : Byte)
  | keyStatus (keyId status : Byte)
  | reset
  | lcdBacklight (lcdType lcdBl : Byte)
  | ledStatus (ledNum ledColor ledTwinkle ledInterval : Byte)
  | other (item : OtherItem)

/-- What the call does. -/
def AppMessage.sending : AppMessage → Option Sending
  | .login protoVersion fwVersion => some (loginToMainboard protoVersion fwVersion)
  | .ackLogin bcfVersion bckVersion found => some (handleAckLogin bcfVersion bckVersion found)
  | .blf => some reqBlf
  | .statusInfo => some reqStatusInfo
  | .key keyId info => some (appSendKey keyId info)
  | .image name flag => reqImage name flag
  | .keyStatus keyId status => some (appSendStatus 0x01 keyId status)
  | .reset => some (appSendReset 0x01)
  | .lcdBacklight lcdType lcdBl => some (appSendLcdBl 0x01 lcdType lcdBl)
  | .ledStatus ledNum ledColor ledTwinkle ledInterval =>
    some (appSendLedStatus 0x01 ledNum ledColor ledTwinkle ledInterval)
  | .other item => some (.item 0x01 item.bytes)

end LearnGit.Uart.App.Messages
