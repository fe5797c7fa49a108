import LearnGit.Lib.Bytes
import LearnGit.Lib.FileMap

/-!
# `LearnGit.FileTransfer.Basic`: names of files that are sent

What the programs of `unpv/filetransfer` share: their clients send a file under the last part of
the path they are given (`splitStr`).
-/

set_option autoImplicit false

namespace LearnGit.FileTransfer

open LearnGit.Lib

abbrev Byte := UInt8

abbrev Path := List Byte

abbrev Files := FileMap Path Byte

def SLASH : Byte := 0x2F

/-- `splitStr(argv1, "/", 0)`: the string is reversed, `strtok` takes its first part, and that
is reversed again. `none` is a null pointer. -/
def splitStr (argv1 : Path) : Option Path :=
  match (argv1.reverse.dropWhile (· = SLASH)).takeWhile (· ≠ SLASH) with
  | [] => none
  | part => some part.reverse

/-- Why a program does not go on. -/
inductive Fault where
  /-- A call failed. -/
  | callFailed
  /-- A null pointer is used, or an array is overrun. -/
  | undefined
  deriving DecidableEq, Repr

end LearnGit.FileTransfer
