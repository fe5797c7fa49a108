import LearnGit.Uart.App.FixedFile

/-!
# `LearnGit.Uart.App.ImageTransfer`: the transfer of an image

`handle_req_image` answers a request for an image, and `handle_ack_req_image` writes what comes.
An item has the command, a byte of flags, the length of the name, the name and a part of the
content. The high half of the flags says which of the two directories the image belongs to, and
the low half is 0 in the first item, 1 in the further ones and 3 in the last.

The sender finds the length of its header with `strlen`, over a buffer that is zero behind it.
The receiver's `malloc` always returns a buffer, also for the empty content of the last item.
-/

set_option autoImplicit false

namespace LearnGit.Uart.App

open LearnGit.Lib
open LearnGit.Uart.Link (Byte)

/-- The directory of the images with this flag. -/
def imageDir (flag : Byte) : Option Path :=
  if flag = 0x01 then some BLF_IMAGES_PATH
  else if flag = 0x02 then some BCF_IMAGES_PATH
  else none

/-! ### Sending -/

/-- The size of the buffer of `handle_req_image`. -/
def IMAGE_BUF : Nat := 4096

/-- `buf[1] |= bits`. -/
def orFlags (buf : List Byte) (bits : Byte) : List Byte := buf.modify 1 (· ||| bits)

/-- The `while` loop of `handle_req_image`, from its `i`-th `read` on. `buf` is the header, and
`room` is how many bytes fit behind it. It is `none` when the loop takes more than `rounds`
rounds. -/
def imageLoop (io : SendIo) (buf : List Byte) (room : Nat) :
    Nat → Nat → List Byte → Option (List (List Byte) × Int)
  | 0, _, _ => none
  | rounds + 1, i, rest =>
    if !io.readOk i then some ([], -3)
    else if rest = [] then
      if io.sendOk i then some ([orFlags buf 0x02], 0) else some ([], -4)
    else if io.sendOk i then
      (imageLoop io buf room rounds (i + 1) (rest.drop room)).map fun (items, ret) =>
        ((buf ++ rest.take room) :: items, ret)
    else some ([], -4)

/-- `handle_req_image`: the items given to `link_send` and the return value. It is `none` when
the first `link_send` fails, since `buf` is then freed twice. -/
def handleReqImage (io : SendIo) (files : Files) (flag : Byte) (imageName : List Byte) :
    Option (List (List Byte) × Int) :=
  if !io.mallocOk then some ([], -1)
  else
    match imageDir flag with
    | none => some ([], -2)
    | some dir =>
      let name := cString imageName
      match files (inDir dir name) with
      | none => some ([], -3)
      | some content =>
        -- The length of the name is cut to a byte, and `strlen` stops at the first zero.
        let buf := cString ((0x80 ||| AppCmd.e2mReqImage.code) :: ((flag <<< 4) &&& 0xF0)
          :: UInt8.ofNat name.length :: name)
        let room := IMAGE_BUF - buf.length
        if !io.readOk 0 then some ([], -3)
        else if io.sendOk 0 then
          (imageLoop io (orFlags buf 0x01) room (content.length + 1) 1 (content.drop room)).map
            fun (items, ret) => ((buf ++ content.take room) :: items, ret)
        else none

/-! ### Receiving -/

/-- The callbacks of the GUI for images. -/
structure ImageGui where
  /-- Whether `to_gui_image` is set. -/
  toGuiImage : Bool
  /-- What `notice_get_all_bcf_image_done` does to the files. -/
  bcfImagesDone : Files → Files

/-- What a handler leaves. -/
inductive Outcome where
  | returned (b : Board) (ret : Int)
  /-- A null pointer is called, and the process ends. -/
  | killed (b : Board)

namespace Outcome

def board : Outcome → Board
  | returned b _ => b
  | killed b => b

end Outcome

/-- The counters of missing images, when one of them has come. -/
def countArrived (env : Env) (gui : ImageGui) (b : Board) (flagCl : Byte) : Board :=
  let b : Board :=
    if b.initFlag < 0 then
      { b with
        filesAbsence := b.filesAbsence - 1
        initFlag := if b.filesAbsence - 1 = 0 then 1 else b.initFlag }
    else b
  if flagCl = 0x01 then
    let b := { b with blfFilesNum := b.blfFilesNum - 1 }
    if b.blfFilesNum = 0 then b.callGui env .startGui else b
  else if flagCl = 0x02 then
    let b := { b with bcfFilesNum := b.bcfFilesNum - 1 }
    if b.bcfFilesNum = 0 then { b with files := gui.bcfImagesDone b.files } else b
  else b

/-- The last item of an image: it gets its name. The test in `core_to_gui_image` is the wrong
way round, so the callback is called only when it is not set. -/
def finishImage (env : Env) (gui : ImageGui) (b : Board) (flagCl : Byte) (path swname : Path) :
    Outcome :=
  let (files, ret) := (b.unlink path).files.rename swname path
  let b := { b with files := files }
  if ret ≠ 0 then .returned b (-2)
  else if gui.toGuiImage then .returned (countArrived env gui b flagCl) 0
  else .killed b

/-- `handle_ack_req_image`. -/
def handleAckReqImage (env : Env) (gui : ImageGui) (b : Board) (aImage : AckImage) : Outcome :=
  match imageDir aImage.flagCl with
  | none => .returned b (-1)
  | some dir =>
    let path := inDir dir (cString aImage.imageName)
    let swname := path ++ cstr ".sw"
    if aImage.flagCs = 0x00 then
      let (files, fd) := (b.unlink swname).files.openCreate swname
      let (files, n) := files.write fd aImage.content
      .returned { b with files := files } (if n ≠ aImage.content.length then -3 else 0)
    else if aImage.flagCs = 0x01 then
      match b.files.openFile swname with
      | none => .returned b (-1)
      | some fd =>
        let (files, n) := b.files.write (b.files.seekEnd fd) aImage.content
        .returned { b with files := files } (if n ≠ aImage.content.length then -3 else 0)
    else if aImage.flagCs = 0x03 then finishImage env gui b aImage.flagCl path swname
    else .returned b (-1)

/-- `app_proto_process` on an item, for the answers with an image. It is `none` for an item
that is decoded to another call. -/
def appProtoProcessImage (env : Env) (gui : ImageGui) (devId : Nat) (b : Board)
    (data : List Byte) : Option Outcome := do
  match ← dispatch devId data with
  | .handleAckReqImage aImage => some (handleAckReqImage env gui b aImage)
  | _ => none

/-- The receiver processes the items in order, as long as its process lives. -/
def receiveImages (env : Env) (gui : ImageGui) (devId : Nat) :
    Board → List (List Byte) → Option Outcome
  | b, [] => some (.returned b 0)
  | b, item :: items => do
    match ← appProtoProcessImage env gui devId b item with
    | .returned b _ => receiveImages env gui devId b items
    | .killed b => some (.killed b)

end LearnGit.Uart.App
