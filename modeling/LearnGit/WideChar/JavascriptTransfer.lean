import LearnGit.WideChar.HexToStr
import LearnGit.Lib.Tokens

/-!
# `LearnGit.WideChar.JavascriptTransfer`: the entries of nested classes

`parser_line` and `file_parser_load` of `wide_char/javascript_transfer.c`. A file has a line for
each class that is opened, for each entry and for each class that is closed, and `class_name` is
the path of the entries: it is extended at a class and cleared at a closing brace.

A string is the list of its bytes up to the NUL. The model follows `sscanf` as far as the three
formats go, and `strcat` is undefined where `class_name` is full. What is printed is left out, and
`calloc` and `strdup` always succeed.
-/

set_option autoImplicit false

namespace LearnGit.WideChar.Javascript

open LearnGit.Lib

def ASCIILINESZ : Nat := 1024

def BLANK : Byte := 0x20
def DOT : Byte := 0x2e
def COLON : Byte := 0x3a
def EQUALS : Byte := 0x3d
def QUOTE : Byte := 0x27
def SLASH : Byte := 0x2f
def STAR : Byte := 0x2a
def BACKSLASH : Byte := 0x5c
def LEFT_BRACE : Byte := 0x7b
def RIGHT_BRACE : Byte := 0x7d

/-- `ISSPACE`. -/
def isSpace (c : Byte) : Bool := c = 0x20 || c = 0x0d || c = 0x0a || c = 0x09

/-- `strstrip`. -/
def strstrip (s : List Byte) : List Byte := strip isSpace s

/-! ### `sscanf` -/

/-- The characters that a blank in a format skips. -/
def isWhite (c : Byte) : Bool :=
  c = 0x20 || c = 0x09 || c = 0x0a || c = 0x0b || c = 0x0c || c = 0x0d

def skipWhite (s : List Byte) : List Byte := s.dropWhile isWhite

/-- `%[^c]`: what is stored, and what is left. It has to match a character. -/
def scanUntil (c : Byte) (s : List Byte) : Option (List Byte × List Byte) :=
  if s.takeWhile (· ≠ c) = [] then none else some (s.takeWhile (· ≠ c), s.dropWhile (· ≠ c))

/-- A character of the format that stands for itself. -/
def scanChar (c : Byte) (s : List Byte) : Option (List Byte) :=
  if s.head? = some c then some s.tail else none

/-- `sscanf(line, "%[^:]: '%[^\']'", str_name, str_value) == 2`. -/
def scanSectionValue (line : List Byte) : Option (List Byte × List Byte) := do
  let (strName, s) ← scanUntil COLON line
  let s ← scanChar COLON s
  let s ← scanChar QUOTE (skipWhite s)
  let (strValue, _) ← scanUntil QUOTE s
  return (strName, strValue)

/-- `sscanf(line, "%[^=] = %s", str_name, str_value) == 2`. -/
def scanAssignment (line : List Byte) : Option (List Byte) := do
  let (strName, s) ← scanUntil EQUALS line
  let s ← scanChar EQUALS (skipWhite s)
  if (skipWhite s).takeWhile (!isWhite ·) = [] then none else return strName

/-- `sscanf(line, "%[^:]: {", str_name) == 1`. What follows the name does not count. -/
def scanClass (line : List Byte) : Option (List Byte) := (scanUntil COLON line).map Prod.fst

/-! ### `parser_line` -/

/-- The values of `class_status` that `parser_line` returns, with what it stores. -/
inductive ClassStatus where
  | lineEmpty
  | lineCommentBegin
  | lineCommentEnd
  | lineClass (strName : List Byte)
  | lineRightParenthesis
  | lineSectionValue (strName strValue : List Byte)
  deriving DecidableEq, Repr

/-- `parser_line` up to `class_name`, on a line without blanks at its ends. -/
def lineStatus (line : List Byte) : ClassStatus :=
  if line.length < 1 then .lineEmpty
  else if line.head? = some RIGHT_BRACE then .lineRightParenthesis
  else if [SLASH, STAR].isPrefixOf line ∨ [SLASH, SLASH].isPrefixOf line then .lineCommentBegin
  else if [STAR, SLASH].isSuffixOf line then .lineCommentEnd
  else
    match scanSectionValue line with
    | some (strName, strValue) => .lineSectionValue (strstrip strName) (strstrip strValue)
    | none =>
      match (scanAssignment line).or (scanClass line) with
      | some strName => .lineClass (strstrip strName)
      | none => .lineRightParenthesis

/-- `class_name` behind a class. -/
def addClass (className strName : List Byte) : Except Fault (List Byte) :=
  let className := (if className = [] then [] else className ++ [DOT]) ++ strName
  if ASCIILINESZ < className.length then .error .undefined else .ok className

/-! ### `file_parser_load` -/

/-- `parser_node`. -/
structure ParserNode where
  className : List Byte
  section_ : List Byte
  value : List Byte
  deriving DecidableEq, Repr

/-- The variables of `file_parser_load`. `pending` is the part of `line` below `last`. -/
structure Load where
  pending : List Byte
  className : List Byte
  nodes : List ParserNode
  deriving DecidableEq, Repr

/-- The `switch` over a line. -/
def loadLine (s : Load) (line : List Byte) : Except Fault Load :=
  match lineStatus (strstrip line) with
  | .lineEmpty | .lineCommentBegin | .lineCommentEnd => .ok { s with pending := [] }
  | .lineClass strName =>
    match addClass s.className strName with
    | .error f => .error f
    | .ok className => .ok { s with pending := [], className := className }
  | .lineSectionValue strName strValue =>
    if s.className = [] then .ok { s with pending := [] }
    else
      .ok { s with
        pending := []
        nodes := ⟨s.className, strName, strValue⟩ :: s.nodes }
  | .lineRightParenthesis => .ok { s with pending := [], className := [] }

/-- The `while` loop. Every call of `fgets` reads a byte. The result is `none` where the function
returns a null pointer. -/
def loadLoop : Nat → Load → List Byte → Except Fault (Option (List ParserNode))
  | 0, s, _ => .ok (some s.nodes)
  | calls + 1, s, file =>
    if file = [] then .ok (some s.nodes)
    else
      let size := ASCIILINESZ - s.pending.length
      let chunk := (fgets size file).1
      let rest := (fgets size file).2
      let line := cStr (s.pending ++ chunk)
      if line.length ≤ 1 then loadLoop calls s rest
      else if line.getLast? ≠ some NEWLINE
          -- `feof`: the call has met the end of the file.
          ∧ ¬(rest = [] ∧ chunk.length < size - 1 ∧ NEWLINE ∉ chunk) then .ok none
      else
        let line := line.rdropWhile fun c => c = NEWLINE || c = BLANK
        if line.getLast? = some BACKSLASH then
          loadLoop calls { s with pending := line.dropLast } rest
        else
          match loadLine s line with
          | .error f => .error f
          | .ok s => loadLoop calls s rest

/-- `file_parser_load`, for a file with these bytes. The nodes are in the order of the list, with
the last one first. -/
def fileParserLoad (file : List Byte) : Except Fault (Option (List ParserNode)) :=
  loadLoop file.length ⟨[], [], []⟩ file

end LearnGit.WideChar.Javascript
