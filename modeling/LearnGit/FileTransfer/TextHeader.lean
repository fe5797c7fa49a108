import LearnGit.FileTransfer.Basic
import LearnGit.Lib.Numeral

/-!
# `LearnGit.FileTransfer.TextHeader`: file transfer with a header of text

`unpv/filetransfer/client.c` and `server.c`: the client sends the length of the name in three
digits, the name, the size of the file in nine digits and the file. The child process of the
server for a connection reads these one after the other.

`cut` says how the bytes arrive: the `i`-th `read` returns at most `cut i + 1` bytes. A `read`
returns at least a byte until all of them are read, and 0 then, since the peer has closed.

An `int` has 32 bits. `fopen` fails for the empty name. Directories are not modelled.
-/

set_option autoImplicit false

namespace LearnGit.FileTransfer.TextHeader

open LearnGit.Lib

def MAXLINE : Nat := 80

/-- The size of `filename`. -/
def FILE_NAME : Nat := 100

/-! ### Text -/

/-- `isspace`. -/
def isSpace (c : Byte) : Bool := c = 0x20 || (0x09 ≤ c && c ≤ 0x0D)

/-- `isdigit`. -/
def isDigit (c : Byte) : Bool := 0x30 ≤ c && c ≤ 0x39

/-- The digits at the front of a string, as a number. -/
def atoiDigits : Nat → List Byte → Nat
  | acc, [] => acc
  | acc, c :: cs => if isDigit c then atoiDigits (acc * 10 + (c.toNat - 0x30)) cs else acc

/-- `atoi`, on at most nine characters. -/
def atoi (bytes : List Byte) : Int :=
  match (cStr bytes).dropWhile isSpace with
  | [] => 0
  | c :: cs =>
    if c = 0x2D then -(atoiDigits 0 cs : Int)
    else if c = 0x2B then atoiDigits 0 cs
    else atoiDigits 0 (c :: cs)

/-- `"%0wd"`. The sign counts as one of the `w` characters. -/
def formatInt (w : Nat) : Int → List Byte
  | .ofNat n => padZeros w (printNat 10 n)
  | .negSucc n => 0x2D :: padZeros (w - 1) (printNat 10 (n + 1))

/-! ### The client -/

/-- `snprintf(buf, MAXLINE - 1, "%03d%s", strlen(filename), filename)`: two characters of `buf`
are not used, one of them for the NUL. -/
def nameHeader (filename : Path) : List Byte :=
  (formatInt 3 filename.length ++ filename).take (MAXLINE - 2)

/-- `snprintf(buf, MAXLINE - 1, "%09d", filesize)`. -/
def sizeHeader (content : List Byte) : List Byte := formatInt 9 (toInt32 content.length)

/-- The bytes that the client sends. `fread` and `write` pass the whole file on. -/
def clientStream (filename : Path) (content : List Byte) : List Byte :=
  nameHeader filename ++ sizeHeader content ++ content

/-- `main` of the client. It is `none` where a null pointer is given to `strlen`. -/
def client (argv1 content : List Byte) : Option (List Byte) :=
  (splitStr argv1).map fun filename => clientStream filename content

/-! ### The server -/

/-- A connection: the bytes that were not read yet, and how many calls of `read` there were. -/
structure Socket where
  rest : List Byte
  reads : Nat

/-- `read(connfd, buf, n)`. -/
def recv (cut : Nat → Nat) (sock : Socket) (n : Nat) : List Byte × Socket :=
  let m := min n (cut sock.reads + 1)
  (sock.rest.take m, ⟨sock.rest.drop m, sock.reads + 1⟩)

/-- How the child process ends. -/
inductive Result where
  | returned (ret : Int) (files : Files)
  | fault (f : Fault)

/-- The name of the file, read into `filename`. The early ends close a null pointer. -/
def readName (cut : Nat → Nat) (sock : Socket) : Except Fault (Path × Socket) :=
  let (buf, sock) := recv cut sock 3
  if atoi buf ≤ 0 then .error .undefined
  else
    let (filename, sock) := recv cut sock (atoi buf).toNat
    if filename = [] then .error .undefined
    -- The array is overrun, or the string has no end in it.
    else if FILE_NAME < filename.length ∨ (filename.length = FILE_NAME ∧ 0 ∉ filename) then
      .error .undefined
    else if cStr filename = [] then .error .callFailed
    else .ok (cStr filename, sock)

/-- The `while` loop: the bytes that are written. It is `none` when it takes more than `rounds`
rounds. The return value 0 of `read` is not told from others. -/
def receiveLoop (cut : Nat → Nat) (filesize : Int) :
    Nat → Nat → Socket → List Byte → Option (List Byte)
  | 0, _, _, _ => none
  | rounds + 1, getsize, sock, out =>
    if (getsize : Int) < filesize then
      let (buf, sock) := recv cut sock MAXLINE
      receiveLoop cut filesize rounds (getsize + buf.length) sock (out ++ buf)
    else some out

/-- The child process for a connection on which these bytes arrive before the peer closes it. It
is `none` when the loop takes more than `rounds` rounds. -/
def serverChild (cut : Nat → Nat) (files : Files) (bytes : List Byte) (rounds : Nat) :
    Option Result :=
  match readName cut ⟨bytes, 0⟩ with
  | .error f => some (.fault f)
  | .ok (filename, sock) =>
    let files := (files.openTrunc filename).1
    let (buf, sock) := recv cut sock 9
    let filesize := atoi buf
    if filesize ≤ 0 then some (.returned (-1) files)
    else
      (receiveLoop cut filesize rounds 0 sock []).map fun out =>
        .returned 0 (Function.update files filename (some out))

end LearnGit.FileTransfer.TextHeader
