import LearnGit.FileTransfer.Basic

/-!
# `LearnGit.FileTransfer.StructMessage`: file transfer with a message structure

`unpv/filetransfer/havinglengthDatagram`: the client sends a file as a sequence of
`struct mymesg`, and the server of `server_select.c` writes it. `long` has 8 bytes, the lowest
first, and the structure has no padding.

The server is followed for one connection, from the start of the program: the global `msgStore`
is zero then. A `read` fills it from its front, and what it did not fill stays from before. The
fields `clientIp`, `clientPort`, `filesize` and `getsize` of the record of a client only go into
messages on the terminal and are left out. Of its `filename`, only its size of 100 bytes
matters: a longer name is copied over the fields behind it.

`fopen` fails for the empty name. Directories are not modelled.
-/

set_option autoImplicit false

namespace LearnGit.FileTransfer.StructMessage

open LearnGit.Lib

def MAXLINE : Nat := 512
def MAXDATAGRAMLENTH : Nat := 512

/-- The size of `fileName`. -/
def FILE_NAME : Nat := 512

/-- The size of `struct cliMessageRecord`'s `filename`. -/
def RECORD_NAME : Nat := 100

/-- `struct mymesg`, with the arrays as they are filled. -/
structure Mymesg where
  mesgType : Nat
  mesgLen : Nat
  mesgData : List Byte
  fileLength : Nat
  fileName : List Byte
  deriving DecidableEq, Repr

/-- `sizeof(struct mymesg)`. -/
def MESG_SIZE : Nat := 1048

/-- The offset of `mesg_data`. -/
def DATA_OFFSET : Nat := 16

/-- The offset of `mesg_attribute.fileName`. -/
def NAME_OFFSET : Nat := 536

/-- The bytes of a structure. -/
def Mymesg.bytes (m : Mymesg) : List Byte :=
  leBytes 8 m.mesgType ++ leBytes 8 m.mesgLen ++ padTo MAXDATAGRAMLENTH m.mesgData
    ++ leBytes 8 m.fileLength ++ padTo FILE_NAME m.fileName

/-! ### The client -/

/-- The blocks that `fread` returns until it returns 0. A block takes at least a byte, so
`content.length` rounds are enough. -/
def freadBlocks : Nat → List Byte → List (List Byte)
  | 0, _ => []
  | rounds + 1, rest =>
    if rest = [] then [] else rest.take MAXLINE :: freadBlocks rounds (rest.drop MAXLINE)

/-- The first message: the length of the file and its name. -/
def attributeMesg (filename content : List Byte) : Mymesg :=
  { mesgType := 0
    mesgLen := 8 + filename.length + 1
    mesgData := []
    fileLength := content.length
    fileName := filename }

/-- A message with a block of the file. The last one is empty. -/
def dataMesg (block : List Byte) : Mymesg :=
  { mesgType := 1, mesgLen := block.length, mesgData := block, fileLength := 0, fileName := [] }

/-- The messages that the client writes. -/
def clientMessages (filename content : List Byte) : List Mymesg :=
  attributeMesg filename content :: (freadBlocks content.length content).map dataMesg
    ++ [dataMesg []]

/-- `main` of the client. It is `none` where a null pointer is given to `strlen`. -/
def client (argv1 content : List Byte) : Option (List Mymesg) :=
  (splitStr argv1).map fun filename => clientMessages filename content

/-! ### The server -/

/-- The server, as far as one connection goes. -/
structure Server where
  msgStore : List Byte
  fileDesc : Option (Fd Path)
  /-- Whether `sockDesc` is open. -/
  connected : Bool
  files : Files

/-- A connection to a server that has just been started. -/
def Server.init (files : Files) : Server :=
  { msgStore := List.replicate MESG_SIZE 0, fileDesc := none, connected := true, files := files }

/-- `msgStore.mesg_type`. -/
def mesgType (store : List Byte) : Nat := leNat (store.take 8)

/-- `msgStore.mesg_len`. -/
def mesgLen (store : List Byte) : Nat := leNat ((store.drop 8).take 8)

/-- `msgStore.mesg_attribute.fileName`, as a string. -/
def fileName (store : List Byte) : Path := cStr (store.drop NAME_OFFSET)

/-- `fopen(fileName, "w")`. -/
def openFile (s : Server) : Except Fault Server :=
  if fileName s.msgStore = [] then .error .callFailed
  else if RECORD_NAME < (fileName s.msgStore).length then .error .undefined
  else
    let (files, fd) := s.files.openTrunc (fileName s.msgStore)
    .ok { s with files := files, fileDesc := some fd }

/-- `write(fileno(fileDesc), mesg_data, n)`, where `n` is what `read` returned and not
`mesg_len`. It goes past the end of `msgStore`, where the bytes `beyond` are. -/
def writeData (beyond : Nat → Byte) (s : Server) (n : Nat) : Except Fault Server :=
  match s.fileDesc with
  | none => .error .undefined
  | some fd =>
    let data := ((s.msgStore ++ (List.range DATA_OFFSET).map beyond).drop DATA_OFFSET).take n
    let (files, written) := s.files.write fd data
    .ok { s with files := files, fileDesc := some { fd with offset := fd.offset + written } }

/-- What the server does when `read` has returned these bytes. -/
def serverRead (beyond : Nat → Byte) (s : Server) (bytes : List Byte) : Except Fault Server :=
  if !s.connected then .ok s
  else
    let s := { s with msgStore := readInto s.msgStore bytes }
    if mesgType s.msgStore = 0 then openFile s
    else if mesgType s.msgStore = 1 then
      if mesgLen s.msgStore = 0 then
        match s.fileDesc with
        | none => .error .undefined
        | some _ => .ok { s with fileDesc := none, connected := false }
      else writeData beyond s bytes.length
    else .ok s

/-- The server, when its calls of `read` return these bytes. -/
def serve (beyond : Nat → Byte) (files : Files) (reads : List (List Byte)) :
    Except Fault Server :=
  reads.foldlM (serverRead beyond) (Server.init files)

end LearnGit.FileTransfer.StructMessage
