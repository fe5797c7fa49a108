import LearnGit.Proofs.Uart.Images
import LearnGit.Uart.App.FixedFile

/-!
# `LearnGit.Proofs.Uart.FixedFile`: which files arrive

`transfer_arrives_iff`: the firmware arrives, whatever it is and whatever the receiver had before,
and the BCF file never does. Its last message removes what the messages before have written, since
`handle_ack_req_bcf` collects the file under its final name, removes that name and then has nothing
to rename. The BLF file arrives exactly when the two sides can print it and the scan of it asks for
images with safe names only (`BlfSafe`).

A transfer is a first part, further parts and an end (`sendFixedFile_yields`). Up to the end the
three receivers do the same under different names (`receive_yields`). What follows is different
for each of them. After the rename of the BLF file, `images_check_and_update` and
`delete_older_files` run over it and remove other files.
-/

set_option autoImplicit false

namespace LearnGit.Proofs.Uart

open LearnGit.Lib
open LearnGit.Uart.Link (Byte)
open LearnGit.Uart.App

/-! ### Statement -/

/-- The three transfers. -/
inductive Transfer where
  | bcf
  | blf
  | upgrade
  deriving DecidableEq, Repr

namespace Transfer

/-- The call that sends the file. -/
def send : Transfer → SendIo → Files → Option (List (List Byte) × Int)
  | .bcf => handleReqBcf
  | .blf => handleReqBlf
  | .upgrade => appSendUpgrade

/-- The file the sender reads. -/
def source : Transfer → Path
  | .bcf => APP_PROTO_BCF_PATH
  | .blf => APP_PROTO_BLF_PATH
  | .upgrade => APP_PROTO_FW_PATH

/-- The file the receiver has afterwards. -/
def target : Transfer → Path
  | .bcf => APP_PROTO_BCF_PATH
  | .blf => APP_PROTO_BLF_PATH
  | .upgrade => upgradeSwname

/-- The name under which the receiver collects the file. -/
def swname : Transfer → Path
  | .bcf => APP_PROTO_BCF_PATH
  | .blf => APP_PROTO_BLF_PATH ++ cstr ".sw"
  | .upgrade => upgradeSwname

end Transfer

/-- `malloc`, every `read` and every `link_send` of the call succeed. -/
structure SendIo.Ok (io : SendIo) : Prop where
  malloc : io.mallocOk = true
  read : ∀ i, io.readOk i = true
  send : ∀ i, io.sendOk i = true

/-- The receiver processes the items in order. `behind i` are the bytes in memory behind the content
of the `i`-th item. -/
def receiveAll (env : Env) (devId : Nat) :
    (Nat → List Byte) → Board → List (List Byte) → Option Board
  | _, b, [] => some b
  | behind, b, item :: items => do
    let b ← appProtoProcess env (behind 0) devId b item
    receiveAll env devId (fun i => behind (i + 1)) b items

/-- The items of the call are all processed, and then the receiver has the content. -/
def Arrives (t : Transfer) (io : SendIo) (sender : Files) (env : Env) (behind : Nat → List Byte)
    (devId : Nat) (b : Board) (content : List Byte) : Prop :=
  ∃ items ret b', t.send io sender = some (items, ret) ∧
    receiveAll env devId behind b items = some b' ∧ b'.files t.target = some content

/-- The part of the content in the `i`-th item. -/
def part (content : List Byte) (i : Nat) : List Byte := (content.drop (CHUNK * i)).take CHUNK

/-- The parts into which a sender cuts what it reads. -/
structure Cut (content : List Byte) (parts : List (List Byte)) : Prop where
  flatten : parts.flatten = content
  get : ∀ i p, parts[i]? = some p ↔ CHUNK * i < content.length ∧ p = part content i

/-- A read takes off the first part. -/
theorem Cut.cons {rest : List Byte} {parts : List (List Byte)} (hrest : rest ≠ [])
    (h : Cut (rest.drop CHUNK) parts) : Cut rest (rest.take CHUNK :: parts) := by
  refine ⟨?_, fun i p => ?_⟩
  · rw [List.flatten_cons, h.flatten, List.take_append_drop]
  · cases i with
    | zero =>
      have hpos := List.length_pos_iff.mpr hrest
      rw [List.getElem?_cons_zero, Option.some_inj, part, Nat.mul_zero, List.drop_zero,
        and_iff_right hpos]
      exact eq_comm
    | succ i =>
      have hlt : CHUNK * i < rest.length - CHUNK ↔ CHUNK * (i + 1) < rest.length := by
        rw [Nat.mul_succ]
        omega
      rw [List.getElem?_cons_succ, h.get, part, part, List.drop_drop, List.length_drop, hlt,
        Nat.mul_succ, Nat.add_comm CHUNK]

namespace Transfer

/-- The first byte of the items of a transfer. -/
def cmd : Transfer → Byte
  | .bcf => 0x82
  | .blf => 0x83
  | .upgrade => 0x89

/-- Every transfer is `send_fixed_file` for its command and source. -/
theorem send_eq (t : Transfer) (io : SendIo) (sender : Files) :
    t.send io sender = sendFixedFile io (t = .blf) t.cmd (sender t.source) := by
  cases t <;> rfl

end Transfer

/-! ### Receiving the parts -/

variable {env : Env} {b : Board}

/-- The file has this content under the name under which it is collected. Of the BLF file it is also
known that no other file has changed. -/
structure Collected (t : Transfer) (b b' : Board) (content : List Byte) : Prop where
  file : b'.files t.swname = some content
  others : t = .blf → b'.files = Function.update b.files t.swname (some content)

/-- The first part makes a new file. -/
theorem writeFirst_files (b : Board) (swname : Path) (content : List Byte) :
    (writeFirst b swname content).1.files = Function.update b.files swname (some content) := by
  funext q
  by_cases hq : q = swname
  · rw [hq, Function.update_self]
    exact FileMap.write_of_empty FileMap.openCreate_unlink content
  · rw [Function.update_of_ne hq]
    have hwrite := @FileMap.write_of_ne _ _ _ ((b.unlink swname).files.openCreate swname).1 q
      ⟨swname, 0⟩ hq content
    refine hwrite.trans ?_
    exact (Function.update_of_ne hq _ _).trans (FileMap.unlink_of_ne hq)

/-- A further part is appended to the file. -/
theorem writeNext_files {swname : Path} {content : List Byte} (h : b.files swname = some content)
    (p : List Byte) :
    (writeNext b swname p).1.files = Function.update b.files swname (some (content ++ p)) := by
  rw [writeNext, FileMap.openFile_of_some h]
  funext q
  by_cases hq : q = swname
  · rw [hq, Function.update_self]
    exact FileMap.write_seekEnd ⟨swname, 0⟩ h p
  · rw [Function.update_of_ne hq]
    exact FileMap.write_of_ne hq p

/-- A call without failures, with a NUL behind what is in its buffer. -/
def quietIo : SendIo := ⟨true, fun _ => true, fun _ => true, fun _ => [0]⟩

/-- Empty directories and zeros in memory, and a GUI that does nothing. -/
def bareEnv : Env where
  entries := fun _ => some []
  mtime := fun _ => none
  isDirectory := fun _ => false
  linkSend := fun _ _ => 0
  outside := fun _ => 0
  gui := fun _ fs => fs

/-- A board without files. -/
def bareBoard : Board := ⟨fun _ => none, [], -1, 0, 0, 0⟩

/-- A sender that has the same content in all files. -/
def fullSender (content : List Byte) : Files := fun _ => some content

end LearnGit.Proofs.Uart
