import LearnGit.Lib.Bytes
import LearnGit.WideChar.LanStrings

/-!
# `LearnGit.WideChar.HexToStr`: reading the strings of a language back

`wide_char/hex_to_str.c` reads a file of lines as `lan_strings` writes them and turns the
numbers in each of them into a wide string. `main` writes the name and the string of each line
that is kept, in the order of the list, with the last line first.

A buffer is the list of the bytes in it up to those that are zero to the end. The text that `main`
writes is left as the names and strings it is made of.
-/

set_option autoImplicit false

namespace LearnGit.WideChar

open LearnGit.Lib

/-- The size of the buffers. -/
def CONF_SIZE : Nat := 10240

def NEWLINE : Byte := 0x0a

def BRACKET : Byte := 0x5b

def BRACE : Byte := 0x7d

/-- `fgets(buf, size, fp)`: the bytes up to a newline, and what is left of the file. -/
def fgets (size : Nat) (file : List Byte) : List Byte × List Byte :=
  let front := file.take (size - 1)
  let n := if NEWLINE ∈ front then front.idxOf NEWLINE + 1 else front.length
  (file.take n, file.drop n)

/-- The calls of `fgets` until the end of the file. Each takes a byte, so there are no more of
them than bytes. -/
def fileLines : Nat → List Byte → List (List Byte)
  | 0, _ => []
  | _ + 1, [] => []
  | calls + 1, file => (fgets CONF_SIZE file).1 :: fileLines calls (fgets CONF_SIZE file).2

/-! ### The lines -/

/-- A node of the list. `name` has a NUL in the place of the bracket, and the rest of the line
is still behind it. -/
structure ConfNode where
  name : List Byte
  data : List Byte
  deriving DecidableEq, Repr

/-- The start of the lines that are kept. -/
def linePrefix : List Byte := ascii "static const wchar_t "

/-- The loop over `node->data`, from its end to its second byte. -/
def findBrace (data : List Byte) : Nat → Option Nat
  | 0 => none
  | i + 1 => if data[i + 1]? = some BRACE then some (i + 1) else findBrace data i

/-- What `read_conf` does with a line. It is `none` for a line that is skipped. -/
def readLine (line : List Byte) : Except Fault (Option ConfNode) :=
  let buf := cStr line
  if ¬linePrefix.isPrefixOf buf then .ok none
  else
    let text := buf.drop linePrefix.length
    let name := if BRACKET ∈ text then text.set (text.idxOf BRACKET) 0 else text
    let skip := linePrefix.length + (cStr name).length + 6
    if buf.length < skip then .error .undefined
    else
      let data := buf.drop skip
      let data := match findBrace data (data.length - 1) with
        | some i => data.take i
        | none => data
      .ok (some ⟨name, data⟩)

/-- The loop of `read_conf`. -/
def readLines : List (List Byte) → List ConfNode → Except Fault (List ConfNode)
  | [], nodes => .ok nodes
  | line :: lines, nodes =>
    match readLine line with
    | .error f => .error f
    | .ok none => readLines lines nodes
    | .ok (some node) => readLines lines (node :: nodes)

/-- `read_conf`. -/
def readConf (file : List Byte) : Except Fault (List ConfNode) :=
  readLines (fileLines file.length file) []

/-! ### The numbers -/

/-- The tokens of `strtok`. -/
def strtok (delim str : List Byte) : List (List Byte) :=
  (str.splitOnP (delim.contains ·)).filter (¬·.isEmpty)

/-- The size of an element of `get_str`. -/
def TOKEN_SIZE : Nat := 200

/-- `split`, with `*num` strings in `get_str`. Without a token it leaves all of them as they
were, and a long one has no NUL. -/
def split (str delim : List Byte) (num : Nat) : Except Fault (List (List Byte)) :=
  let toks := (strtok delim str).take num
  if toks = [] ∨ ∃ tok ∈ toks, TOKEN_SIZE ≤ tok.length then .error .undefined
  else .ok toks

/-- `num *= 16` and `num += digit`. -/
def pushDigit (num digit : Nat) : Except Fault Nat :=
  if num * 16 + digit ≤ INT_MAX then .ok (num * 16 + digit) else .error .undefined

/-- The loop of `hex_str_to_bin`. Its test for `0x` asks one character to be both and never
holds. -/
def hexStep (num : Nat) (c : Byte) : Except Fault Nat :=
  if 0x30 ≤ c ∧ c ≤ 0x39 then pushDigit num (c.toNat - 0x30)
  else if 0x61 ≤ c ∧ c ≤ 0x66 then pushDigit num (c.toNat - 0x61 + 10)
  else .ok num

/-- `hex_str_to_bin`. -/
def hexStrToBin (hex : List Byte) : Except Fault Nat := hex.foldlM hexStep 0

/-- What `main` writes for a node: the name without its first four bytes, and the string. -/
def nodeString (node : ConfNode) : Except Fault (Name × List WChar) := do
  let toks ← split node.data (ascii ", ") 200
  let str ← toks.mapM hexStrToBin
  return (cStr (node.name.drop 4), wcs (str.map UInt32.ofNat))

/-- `main`, for a file with these bytes. -/
def hexToStr (file : List Byte) : Except Fault (List (Name × List WChar)) :=
  match readConf file with
  | .error f => .error f
  | .ok nodes => nodes.mapM nodeString

end LearnGit.WideChar
