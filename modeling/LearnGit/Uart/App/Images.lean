import LearnGit.Lib.FileMap
import LearnGit.Uart.App.Messages

/-!
# `LearnGit.Uart.App.Images`: the board that receives files, and its images

The state of a board as far as the transfer of files goes, and the two functions that run when
a configuration file has arrived: `images_check_and_update` asks for the images that the file
names and the board does not have, and `delete_older_files` removes images that are older than
the file.

Paths are C strings without their NUL, and a path is looked up as it is written. `chdir` is
followed: a name that `delete_older_files` removes is in the directory it has changed to, and a
name that `images_check_and_update` removes is in the working directory.

`Env` is what the code finds outside: the listings and the modification times of the
directories, the answers of `link_send`, the bytes behind the end of `oneline`, and the functions of
the GUI that it calls back.

A read outside of an array gives any byte. A store outside of one leaves the run without a result:
`req_image` stores behind its buffer for a name of 127 bytes, and the search for old versions of an
image stores in front of `image_name` for a name without an underscore.
-/

set_option autoImplicit false

namespace LearnGit.Uart.App

open LearnGit.Lib
open LearnGit.Uart.Link (Byte)
open LearnGit.Uart.App.Messages (Sending)

abbrev Path := List Byte

abbrev Files := FileMap Path Byte

/-- The bytes of a string constant. -/
def cstr (s : String) : Path := s.toList.map fun c => UInt8.ofNat c.toNat

def APP_PROTO_WORK_PATH : Path := cstr "./"
def APP_PROTO_BCF_PATH : Path := APP_PROTO_WORK_PATH ++ cstr "minigui/res/bcf.xml"
def APP_PROTO_BLF_PATH : Path := APP_PROTO_WORK_PATH ++ cstr "../data/tmp/dsscfg/blf.xml"
def BLF_IMAGES_PATH : Path := APP_PROTO_WORK_PATH ++ cstr "minigui/res/pic/blf"
def BCF_IMAGES_PATH : Path := APP_PROTO_WORK_PATH ++ cstr "minigui/res/pic/bcf"
def APP_PROTO_FW_PATH : Path := APP_PROTO_WORK_PATH ++ cstr "../data/exp.tar.gz"

def MAX_NAME_LENGTH : Nat := 128
def MAX_ONELINE_LENGTH : Nat := 512

def SLASH : Byte := 0x2F
def UNDERSCORE : Byte := 0x5F

/-- `d_name`: an entry of a directory. -/
structure Name where
  bytes : Path
  noSlash : SLASH ∉ bytes

/-- `"%s/%s"`. -/
def inDir (dir name : Path) : Path := dir ++ SLASH :: name

/-- The functions of the GUI that the file transfers call back. -/
inductive GuiCall where
  | startGui
  | updateBcf
  | updateBlf
  | upgradeStart
  | upgrade
  deriving DecidableEq, Repr

structure Env where
  /-- `opendir` and `readdir`: the entries in order, or `none` when `opendir` fails. -/
  entries : Path → Option (List Name)
  /-- `stat`: the modification time, or `none` when `stat` fails. -/
  mtime : Path → Option Int
  /-- What `access` finds besides the files: the directories. -/
  isDirectory : Path → Bool
  /-- What `link_send` returns for an item, after these items. -/
  linkSend : List (List Byte) → List Byte → Int
  /-- The bytes from the index `MAX_ONELINE_LENGTH` of `oneline` on. -/
  outside : Nat → Byte
  /-- What a callback does to the files. -/
  gui : GuiCall → Files → Files

/-- The state of a board. `linkOut` holds the items that `link_send` was called with, whatever it has
returned. -/
structure Board where
  files : Files
  linkOut : List (List Byte)
  initFlag : Int
  filesAbsence : Int
  blfFilesNum : Int
  bcfFilesNum : Int

namespace Board

/-- A callback of the GUI. -/
def callGui (b : Board) (env : Env) (call : GuiCall) : Board :=
  { b with files := env.gui call b.files }

/-- `unlink(path)`. -/
def unlink (b : Board) (path : Path) : Board := { b with files := (b.files.unlink path).1 }

/-- `link_send`, with what it returns. -/
def linkSend (b : Board) (env : Env) (buf : List Byte) : Board × Int :=
  ({ b with linkOut := b.linkOut ++ [buf] }, env.linkSend b.linkOut buf)

end Board

/-- `access(path, F_OK)` fails. -/
def absent (env : Env) (files : Files) (path : Path) : Bool :=
  (files path).isNone && !env.isDirectory path

/-! ### `delete_older_files` -/

/-- The loop of `delete_older_files` over the entries of `dir`. -/
def deleteLoop (env : Env) (dir : Path) (trm : Int) : List Name → Board → Board × Int
  | [], b => (b, 0)
  | de :: rest, b =>
    match env.mtime (inDir dir de.bytes) with
    -- The function returns at the first entry that has no modification time.
    | none => (b, -4)
    | some t =>
      deleteLoop env dir trm rest (if t < trm then b.unlink (inDir dir de.bytes) else b)

/-- `delete_older_files`. -/
def deleteOlderFiles (env : Env) (b : Board) (ref dir : Path) : Board × Int :=
  match env.mtime ref with
  | none => (b, -2)
  | some trm =>
    match env.entries dir with
    | none => (b, -3)
    | some entries => deleteLoop env dir trm entries b

/-! ### `images_check_and_update` -/

/-- A blank, a carriage return, a line feed or a tab. -/
def isBlank (c : Byte) : Bool := c = 0x20 || c = 0x0D || c = 0x0A || c = 0x09

/-- The inner loop: the bytes up to `>`, or as many as fit, without the blanks. The result is
the line and what is left of the file, or `none` at the end of the file. -/
def readOneline : Nat → List Byte → Option (List Byte × List Byte)
  | 0, rest => some ([], rest)
  | _ + 1, [] => none
  | slots + 1, c :: rest =>
    if isBlank c then readOneline (slots + 1) rest
    else if c = 0x3E then some ([c], rest)
    else (readOneline slots rest).map fun (line, rest) => (c :: line, rest)

/-- `strlen` cuts a byte array at its first NUL. -/
def cString (bytes : List Byte) : List Byte := bytes.takeWhile (· ≠ 0)

/-- `strstr`: the index of the first occurrence. -/
def strstr (needle : List Byte) : List Byte → Option Nat
  | [] => if needle = [] then some 0 else none
  | c :: rest =>
    if needle.isPrefixOf (c :: rest) then some 0 else (strstr needle rest).map (· + 1)

/-- `oneline[i]`, where `line` was read. -/
def onelineByte (env : Env) (line : List Byte) (i : Nat) : Byte :=
  if i < MAX_ONELINE_LENGTH then line.getD i 0 else env.outside i

/-- The loop that copies `image_name` from `oneline`, up to a quotation mark. -/
def copyImageName (env : Env) (line : List Byte) (pch : Nat) : List Byte :=
  ((List.range (MAX_NAME_LENGTH - 1)).map fun ui => onelineByte env line (pch + ui)).takeWhile
    (· ≠ 0x22)

/-- The search for the last underscore, from the index `pch` down. Without one the search ends
in front of the array. -/
def searchUnderscore (imageName : List Byte) : Nat → Int
  | 0 => -1
  | pch + 1 => if imageName.getD pch 0 = UNDERSCORE then pch else searchUnderscore imageName pch

/-- `req_image` on a board. -/
def reqImage (env : Env) (b : Board) (name : List Byte) (flag : Byte) : Option (Board × Int) := do
  let sending ← Messages.reqImage name flag
  sending.run (fun b _ buf => some (b.linkSend env buf)) b

/-- The counters of missing images. -/
def countAbsent (b : Board) (imageDir : Path) : Board :=
  { b with
    filesAbsence := if b.initFlag < 0 then b.filesAbsence + 1 else b.filesAbsence
    blfFilesNum := if BLF_IMAGES_PATH = imageDir then b.blfFilesNum + 1 else b.blfFilesNum
    bcfFilesNum := if BCF_IMAGES_PATH = imageDir then b.bcfFilesNum + 1 else b.bcfFilesNum }

/-- The next entry of the directory is removed when it does not begin with the part of the name
before its underscore. Only one entry is looked at. Without an underscore `memset` begins at
`image_name[-1]`. -/
def removeOld (b : Board) (imageName : List Byte) (dp : List Name) : Option (Board × List Name) :=
  let pch := searchUnderscore imageName (MAX_NAME_LENGTH - 1)
  if pch = 0 then some (b, dp)
  else if pch < 0 then none
  else
    match dp with
    | [] => some (b, [])
    | de :: dp =>
      if (cString (imageName.take pch.toNat)).isPrefixOf de.bytes then some (b, dp)
      else some (b.unlink de.bytes, dp)

/-- An image is asked for. What `req_image` returns is not looked at. -/
def askImage (env : Env) (imageDir : Path) (flag : Byte) (imageName : List Byte) (b : Board)
    (dp : List Name) : Option (Board × List Name) := do
  let (b, _) ← reqImage env (countAbsent b imageDir) (cString imageName) flag
  removeOld b imageName dp

/-- The name of the image that a line is about. -/
def lineImage (env : Env) (line : List Byte) : Option (List Byte) :=
  (strstr (cstr "Image") (cString line)).map fun pch => copyImageName env line (pch + 7)

/-- What `images_check_and_update` does with a line. -/
def checkLine (env : Env) (imageDir : Path) (flag : Byte) (line : List Byte) (b : Board)
    (dp : List Name) : Option (Board × List Name) :=
  match lineImage env line with
  | none => some (b, dp)
  | some imageName =>
    if absent env b.files (inDir imageDir (cString imageName)) then
      askImage env imageDir flag imageName b dp
    else some (b, dp)

/-- The outer loop of `images_check_and_update`. It is `none` when a round stores outside of an
array, and when the loop takes more than `rounds` rounds. -/
def imagesLoop (env : Env) (imageDir : Path) (flag : Byte) :
    Nat → List Byte → List Name → Board → Option (Board × Int)
  | 0, _, _, _ => none
  | rounds + 1, rest, dp, b =>
    match readOneline (MAX_ONELINE_LENGTH - 1) rest with
    | none =>
      some (if BLF_IMAGES_PATH = imageDir ∧ b.blfFilesNum = 0 then b.callGui env .startGui else b,
        0)
    | some (line, rest) => do
      let (b, dp) ← checkLine env imageDir flag line b dp
      imagesLoop env imageDir flag rounds rest dp b

/-- `images_check_and_update` on an open file with this content. Every round reads a byte. -/
def imagesCheckAndUpdate (env : Env) (b : Board) (content : List Byte) (imageDir : Path)
    (flag : Byte) : Option (Board × Int) :=
  match env.entries imageDir with
  | none => some (b, -1)
  | some entries => imagesLoop env imageDir flag (content.length + 1) content entries b

end LearnGit.Uart.App
