import LearnGit.Lib.Bytes

/-!
# `LearnGit.Fsm.DeleteComment`: the comment stripper

The state machine of `fsm/delete_comment.c`, which copies its input without the comments. `c` is a
`char`, with a sign as on the usual compilers, so that the byte 0xFF is equal to `EOF`.
-/

set_option autoImplicit false

namespace LearnGit.Fsm

abbrev Byte := UInt8

def SLASH : Byte := 0x2F

def STAR : Byte := 0x2A

def NEWLINE : Byte := 0x0A

/-- The byte whose `char` is `EOF`. -/
def EOF_BYTE : Byte := 0xFF

/-- `state`, from 0 to 4. The `default` of the `switch` is never taken. -/
inductive State where
  /-- 0: outside of comments. -/
  | text
  /-- 1: behind a slash. -/
  | slash
  /-- 2: in a comment that ends with its line. -/
  | line
  /-- 3: in a comment that ends with a star and a slash. -/
  | block
  /-- 4: in such a comment, behind a star. -/
  | star
  deriving DecidableEq, Repr

/-- The `switch`: the next state, and the bytes given to `putchar`. -/
def step (state : State) (c : Byte) : State × List Byte :=
  match state with
  | .text => if c = SLASH then (.slash, []) else (.text, [c])
  | .slash =>
    if c = SLASH then (.line, [])
    else if c = STAR then (.block, [])
    else (.text, [SLASH, c])
  | .line => if c = NEWLINE then (.text, [c]) else (.line, [])
  | .block => if c = STAR then (.star, []) else (.block, [])
  | .star => if c = SLASH then (.text, []) else (.block, [])

/-- The `while` loop. -/
def deleteLoop : State → List Byte → List Byte
  | _, [] => []
  | state, c :: input =>
    if c = EOF_BYTE then []
    else (step state c).2 ++ deleteLoop (step state c).1 input

/-- `main`: the output for this input. -/
def deleteComment (input : List Byte) : List Byte := deleteLoop .text input

end LearnGit.Fsm
