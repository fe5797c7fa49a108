import Mathlib.Data.Int.Notation
import Mathlib.Tactic.Common

/-!
# `LearnGit.DynamicProgramming.ZigZag`: the length of a zigzag

`longestZigZag` of `c_plus_plus/topCoder/zigZag/zigZag.cpp`, in exact integers.
-/

set_option autoImplicit false

namespace LearnGit.DynamicProgramming.ZigZag

/-- `v`: the differences of neighbours. -/
def differences (sequence : List Int) : List Int :=
  List.zipWith (fun next this => next - this) sequence.tail sequence

/-- The locals that the second loop changes. -/
structure Locals where
  dir : Int
  len : Nat

/-- The body of the second loop, for the element `d` of `v`. -/
def turnRound (s : Locals) (d : Int) : Locals :=
  if d * s.dir < 0 then ⟨s.dir * -1, s.len + 1⟩ else s

/-- `longestZigZag`. For no elements, the size of `v` wraps around and its constructor throws. -/
def longestZigZag (sequence : List Int) : Option Nat :=
  match sequence with
  | [] => none
  | [_] => some 1
  | sequence =>
    -- The first loop leaves out the zeros at the front.
    match (differences sequence).dropWhile (· == 0) with
    | [] => some 1
    | d :: rest => some (rest.foldl turnRound ⟨d, 2⟩).len

end LearnGit.DynamicProgramming.ZigZag
