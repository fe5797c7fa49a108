import LearnGit.Uart.App.Images

/-!
# `LearnGit.Uart.App.FixedFile`: the transfer of the configuration files and of the firmware

The three senders `handle_req_bcf`, `handle_req_blf` and `app_send_upgrade` are the same loop
over a path and a command: a first message with the flag `TRANS_START`, one with
`TRANS_CONTINUE` for each further 4094 bytes, and an empty one with `TRANS_END`.

The three receivers differ. `handle_ack_req_blf` collects the file under a second name and
renames it at the end. `handle_ack_req_bcf` has the same steps with the same name twice.
`handle_upgrade_fw` collects the file where it stays.

`handle_req_blf` and `handle_ack_req_blf` also print what they send and receive, with `%s` and
without a NUL of their own behind it. So the text goes on in the memory behind the buffer, whose
bytes may be any, and the run has no result where no NUL comes (`printText`).
-/

set_option autoImplicit false

namespace LearnGit.Uart.App

open LearnGit.Lib
open LearnGit.Uart.Link (Byte)

/-- `printf` with `%s` of a buffer that is followed by these bytes in memory. -/
def printText (buf behind : List Byte) : Option (List Byte) :=
  if 0 ∈ buf ++ behind then some (cString (buf ++ behind)) else none

/-! ### Sending -/

/-- The outcomes of `malloc`, of the `i`-th `read` and of the `i`-th `link_send` of a call.
`behind i` are the bytes of the buffer and of the memory behind it that follow what the `i`-th `read`
has put into it. -/
structure SendIo where
  mallocOk : Bool
  readOk : Nat → Bool
  sendOk : Nat → Bool
  behind : Nat → List Byte

/-- How many bytes of the file a message takes. -/
def CHUNK : Nat := 4094

/-- A sender prints the item in its buffer, if it is one that does. -/
def printItem (io : SendIo) (prints : Bool) (i : Nat) (item : List Byte) : Option Unit :=
  if prints then (printText item (io.behind i)).map fun _ => () else some ()

/-- The `while` loop of a sender, from its `i`-th `read` on. The result is the items given to
`link_send` and the return value. It is `none` when the loop takes more than `rounds` rounds. -/
def sendLoop (io : SendIo) (prints : Bool) (cmd : Byte) :
    Nat → Nat → List Byte → Option (List (List Byte) × Int)
  | 0, _, _ => none
  | rounds + 1, i, rest =>
    if !io.readOk i then some ([], -3)
    else if rest = [] then
      -- `read` returned 0, and the flag is set to `TRANS_END` before the send.
      if io.sendOk i then some ([[cmd, TRANS_END]], 0)
      else (printItem io prints i [cmd, TRANS_END]).map fun _ => ([], -4)
    else
      let item := cmd :: TRANS_CONTINUE :: rest.take CHUNK
      if io.sendOk i then
        (sendLoop io prints cmd rounds (i + 1) (rest.drop CHUNK)).map fun (items, ret) =>
          (item :: items, ret)
      else (printItem io prints i item).map fun _ => ([], -4)

/-- A sender. `file` is the content of the file it opens, and `none` when `open` fails. Every
round of the loop but the last reads a byte. -/
def sendFixedFile (io : SendIo) (prints : Bool) (cmd : Byte) (file : Option (List Byte)) :
    Option (List (List Byte) × Int) :=
  if !io.mallocOk then some ([], -1)
  else
    match file with
    | none => some ([], -2)
    | some content =>
      if !io.readOk 0 then some ([], -3)
      else do
        let item := cmd :: TRANS_START :: content.take CHUNK
        -- The first item is printed whatever `link_send` returns, and once more when it fails.
        printItem io prints 0 item
        if io.sendOk 0 then
          let (items, ret) ← sendLoop io prints cmd (content.length + 1) 1 (content.drop CHUNK)
          return (item :: items, ret)
        else return ([], -4)

/-- `handle_req_bcf`. -/
def handleReqBcf (io : SendIo) (files : Files) : Option (List (List Byte) × Int) :=
  sendFixedFile io false (0x80 ||| AppCmd.e2mReqBcf.code) (files APP_PROTO_BCF_PATH)

/-- `handle_req_blf`. -/
def handleReqBlf (io : SendIo) (files : Files) : Option (List (List Byte) × Int) :=
  sendFixedFile io true (0x80 ||| AppCmd.e2mReqBlf.code) (files APP_PROTO_BLF_PATH)

/-- `app_send_upgrade`. -/
def appSendUpgrade (io : SendIo) (files : Files) : Option (List (List Byte) × Int) :=
  sendFixedFile io false (AppCmd.m2eUpFw.code ||| 0x80) (files APP_PROTO_FW_PATH)

/-! ### Receiving -/

/-- `unlink` and `open` with `O_CREAT`, and the first part is written. -/
def writeFirst (b : Board) (swname : Path) (content : List Byte) : Board × Int :=
  let (files, fd) := (b.unlink swname).files.openCreate swname
  let (files, n) := files.write fd content
  ({ b with files := files }, if n ≠ content.length then -2 else 0)

/-- `open` without `O_CREAT`, and a further part is written at the end. -/
def writeNext (b : Board) (swname : Path) (content : List Byte) : Board × Int :=
  match b.files.openFile swname with
  | none => (b, -1)
  | some fd =>
    let (files, n) := b.files.write (b.files.seekEnd fd) content
    ({ b with files := files }, if n ≠ content.length then -2 else 0)

/-- `handle_ack_req_bcf`. The name it writes to is the name it removes before it renames. -/
def handleAckReqBcf (env : Env) (b : Board) (bcf : FixedFile) : Option (Board × Int) :=
  let swname := APP_PROTO_BCF_PATH
  if bcf.flagCs = 0x0F then some (writeFirst b swname bcf.content)
  else if bcf.flagCs = 0xF0 then some (writeNext b swname bcf.content)
  else
    -- `swname` is this path, so the file that has just arrived is removed.
    let b := (b.callGui env .updateBcf).unlink APP_PROTO_BCF_PATH
    let (files, ret) := b.files.rename swname APP_PROTO_BCF_PATH
    let b := { b with files := files }
    if ret ≠ 0 then some (b, -2)
    else
      match b.files APP_PROTO_BCF_PATH with
      | none => some (b, -3)
      | some content => do
        let (b, ret) ← imagesCheckAndUpdate env b content BCF_IMAGES_PATH 0x02
        if ret ≠ 0 then return (b, -4)
        else return ((deleteOlderFiles env b APP_PROTO_BCF_PATH BCF_IMAGES_PATH).1, 0)

/-- `handle_ack_req_blf`. `behind` are the bytes in memory behind the block with the content. -/
def handleAckReqBlf (env : Env) (behind : List Byte) (b : Board) (blf : FixedFile) :
    Option (Board × Int) :=
  let swname := APP_PROTO_BLF_PATH ++ cstr ".sw"
  if blf.flagCs = 0x0F then
    (printText blf.content behind).map fun _ => writeFirst b swname blf.content
  else if blf.flagCs = 0xF0 then
    if (b.files.openFile swname).isNone then some (b, -1)
    else (printText blf.content behind).map fun _ => writeNext b swname blf.content
  else
    let b := (b.callGui env .updateBlf).unlink APP_PROTO_BLF_PATH
    let (files, ret) := b.files.rename swname APP_PROTO_BLF_PATH
    let b := { b with files := files }
    if ret ≠ 0 then some (b, -2)
    else
      match b.files APP_PROTO_BLF_PATH with
      | none => some (b, -1)
      | some content => do
        let (b, ret) ← imagesCheckAndUpdate env b content BLF_IMAGES_PATH 0x01
        if ret < 0 then return (b, -2)
        else
          let (b, ret) := deleteOlderFiles env b APP_PROTO_BLF_PATH BLF_IMAGES_PATH
          return (b, if ret < 0 then -3 else 0)

/-- The name `handle_upgrade_fw` writes to. -/
def upgradeSwname : Path := cstr "../data/tmp/exp.tar.gz"

/-- `handle_upgrade_fw`. -/
def handleUpgradeFw (env : Env) (b : Board) (fw : FixedFile) : Board × Int :=
  if fw.flagCs = TRANS_START then
    -- The callback comes between the `open` and the `write`.
    let (files, fd) := (b.unlink upgradeSwname).files.openCreate upgradeSwname
    let b := { b with files := files }.callGui env .upgradeStart
    let (files, n) := b.files.write fd fw.content
    ({ b with files := files }, if n ≠ fw.content.length then -2 else 0)
  else if fw.flagCs = TRANS_CONTINUE then writeNext b upgradeSwname fw.content
  else ((b.unlink APP_PROTO_FW_PATH).callGui env .upgrade, 0)

/-- `app_proto_process` on an item, for the handlers of the three files. It is `none` for an
item that is decoded to another call. -/
def appProtoProcess (env : Env) (behind : List Byte) (devId : Nat) (b : Board) (data : List Byte) :
    Option Board := do
  match ← dispatch devId data with
  | .handleAckReqBcf bcf => (handleAckReqBcf env b bcf).map Prod.fst
  | .handleAckReqBlf blf => (handleAckReqBlf env behind b blf).map Prod.fst
  | .handleUpgradeFw fw => some (handleUpgradeFw env b fw).1
  | _ => none

end LearnGit.Uart.App
