import Mathlib.Tactic.Common

/-!
# `LearnGit.Uart.Tty.TtyProto`: writing to the serial port

`write_port` of `third_party/uart_protocol/tty/tty_proto.c`. It tries `write` at most three times,
and tells from the counter of its loop whether it was successful.

`write i` is what the call number `i` of `write` returns. The model has the results of the attempts
that were made. Between two attempts there are `tcflush` and `usleep`, which are left out.
-/

set_option autoImplicit false

namespace LearnGit.Uart.Tty

/-- The value of `times` behind the loop of `write_port`, and the results of its attempts. -/
structure WriteLoop where
  times : Int
  attempts : List Int
  deriving DecidableEq, Repr

/-- `while(times--)`, where `attempts` have been made. -/
def writeLoop (write : Nat → Int) (len : Int) : Nat → List Int → WriteLoop
  -- The counter is decremented behind the last comparison too.
  | 0, attempts => ⟨-1, attempts⟩
  | times + 1, attempts =>
    let ret := write attempts.length
    if ret < 0 ∨ ret < len then writeLoop write len times (attempts ++ [ret])
    else ⟨times, attempts ++ [ret]⟩

/-- The return value of `write_port`, and the results of its attempts. -/
structure WritePort where
  ret : Int
  attempts : List Int
  deriving DecidableEq, Repr

/-- `write_port`. -/
def writePort (write : Nat → Int) (len : Int) : WritePort :=
  let loop := writeLoop write len 3 []
  if 0 = loop.times then ⟨-1, loop.attempts⟩ else ⟨0, loop.attempts⟩

end LearnGit.Uart.Tty
