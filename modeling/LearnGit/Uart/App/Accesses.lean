import LearnGit.Uart.App.AppProto

/-!
# `LearnGit.Uart.App.Accesses`: what the decoding reads and copies

The accesses that `app_proto_process` makes to an item, in their order: the bytes it reads, the
sizes it computes and the copies it makes. `AppProto` has the values that come of them.

The length of an item is an `unsigned int`, and so are the sizes computed from it. Behind the
first access outside the item, what is read is not known, and the model reads zeros there.
-/

set_option autoImplicit false

namespace LearnGit.Uart.App

open LearnGit.Uart.Link (Byte)

/-- A received item, of which the first byte is there. -/
structure Item where
  data : List Byte
  pos : 1 ≤ data.length
  lt : data.length < 2 ^ 32

/-- The difference of two `unsigned int`. -/
def unsignedSub (a b : Nat) : Nat := (a + 2 ^ 32 - b) % 2 ^ 32

inductive Access where
  /-- `data[index]`. -/
  | read (index : Nat)
  /-- A size is computed as the difference of the whole length and what stands in front. -/
  | size (total front : Nat)
  /-- `memcpy` of `count` bytes from `data + start` to a buffer of `capacity` bytes. -/
  | copy (start count capacity : Nat)
  /-- `memcpy` of `count` bytes from `data + start` to `image_name`. -/
  | copyName (start count : Nat)
  deriving DecidableEq, Repr

/-- The access stays inside an item of this length, and inside its destination. A name leaves
room for its NUL, and a size does not wrap. -/
def Access.Inside (length : Nat) : Access → Prop
  | read index => index < length
  | size total front => front ≤ total
  | copy start count capacity => start + count ≤ length ∧ count ≤ capacity
  | copyName start count => start + count ≤ length ∧ count ≤ MAX_PATH_LENGTH - 1

/-- The flag, and `malloc`, `memset` and `memcpy` with `len_content`. -/
def fixedFileAccesses (length : Nat) : List Access :=
  [.read 1, .size length 2, .copy 2 (unsignedSub length 2) (unsignedSub length 2)]

/-- The length of the name in an item with an image. -/
def lenName (data : List Byte) : Nat := (data.getD 2 0).toNat

/-- The flags, the length of the name, the name and the content. -/
def imageAccesses (data : List Byte) : List Access :=
  let lenContent := unsignedSub data.length (lenName data + 3)
  [.read 1, .read 2, .size data.length (lenName data + 3), .copyName 3 (lenName data),
    .copy (3 + lenName data) lenContent lenContent]

/-- The accesses of the first `switch`. -/
def requestAccesses (data : List Byte) : Option AppCmd → List Access
  | some .e2mLogin => [.read 1, .read 2, .read 3]
  | some .e2mReqImage =>
    [.read 1, .size data.length 2, .copyName 2 (unsignedSub data.length 2)]
  | some .e2mSendKey | some .m2eSendStat => [.read 1, .read 2]
  | some .m2eSendBlk | some .m2eUpFw => fixedFileAccesses data.length
  | some .m2eSendImage => imageAccesses data
  -- `pcmd->cmd_len`, which is not used.
  | some .e2mCmd => [.read 2]
  | some .e2mReqBcf | some .e2mReqBlf | some .m2eResetEx | some .e2mAskStatus
  | some .m2eSendLcdBacklight | some .m2eSendLedInfo | some .m2eCmd | none => []

/-- The accesses of the second `switch`, with its falls through. -/
def ackAccesses (data : List Byte) : Option AppCmd → List Access
  | some .e2mLogin => [.read 1, .read 2]
  | some .e2mReqBcf | some .e2mReqBlf => fixedFileAccesses data.length
  | some .e2mReqImage => imageAccesses data
  | some .m2eSendLcdBacklight => [.read 1, .read 2]
  | some .m2eSendLedInfo => [.read 1, .read 2, .read 3, .read 4]
  | some .e2mSendKey | some .m2eSendStat | some .m2eSendBlk | some .m2eResetEx
  | some .m2eUpFw => fixedFileAccesses data.length
  | some .m2eSendImage | some .m2eCmd | some .e2mAskStatus | some .e2mCmd | none => []

/-- The accesses of `app_proto_process`. -/
def accesses (data : List Byte) : List Access :=
  let cmd := data.getD 0 0
  .read 0 ::
    if cmd &&& 0x80 = 0x80 then ackAccesses data (AppCmd.ofCode (cmd &&& 0x7F))
    else requestAccesses data (AppCmd.ofCode cmd)

end LearnGit.Uart.App
