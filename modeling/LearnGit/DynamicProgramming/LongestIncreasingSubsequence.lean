import Mathlib.Logic.Function.Basic
import LearnGit.Lib.Loop

/-!
# `LearnGit.DynamicProgramming.LongestIncreasingSubsequence`: the length of a subsequence

`lis` of `dynamic_programming/topcoder/longest_increasing_subsequence.c`, with a table of lengths,
and `LIS` of `longest_increasing_subsequence_better.c`, which keeps the last elements in an array
and finds the place of the next one by binary search (`upper_bound`).

An array is the function from an index to the element there. The memory that `alloca` gives to
`LIS` holds any values, and `upper_bound` says which positions of it were read.
-/

set_option autoImplicit false

namespace LearnGit.DynamicProgramming

open LearnGit.Lib

/-! ### The table of lengths -/

/-- The locals of `lis` that its loop changes. -/
structure LisLocals where
  d : Nat → Nat
  len : Nat

/-- The loop over `j` of `lis`. -/
def lisExtend (arr : Nat → Int) (i : Nat) (d : Nat → Nat) : Nat → Nat :=
  forUp 0 i (fun j _ _ d =>
    if arr j ≤ arr i ∧ d j + 1 > d i then Function.update d i (d j + 1) else d) d

/-- The round of `lis` for `i`. -/
def lisRound (arr : Nat → Int) (i : Nat) (s : LisLocals) : LisLocals :=
  let d := lisExtend arr i (Function.update s.d i 1)
  ⟨d, if d i > s.len then d i else s.len⟩

/-- What `upper_bound` returns, and the positions it read. -/
structure Search where
  pos : Nat
  reads : List Nat

/-- The loop of `upper_bound`. -/
def upperBoundLoop (arr : Nat → Int) (key : Int) (s e : Nat) (reads : List Nat) : Search :=
  if _h : s < e then
    let mid := s + (e - s) / 2
    if arr mid ≤ key then upperBoundLoop arr key (mid + 1) e (reads ++ [mid])
    else upperBoundLoop arr key s mid (reads ++ [mid])
  else ⟨s, reads⟩
termination_by e - s

/-- `upper_bound`. -/
def upperBound (arr : Nat → Int) (s e : Nat) (key : Int) : Search :=
  if arr e ≤ key then ⟨e + 1, [e]⟩ else upperBoundLoop arr key s e [e]

/-- The locals of `LIS` that its loop changes, and for each search so far the `len` it was made
with and the positions it read. -/
structure LISLocals where
  ends : Nat → Int
  len : Nat
  searches : List (Nat × List Nat)

/-- The round of `LIS` for the element `x`. -/
def LISRound (x : Int) (s : LISLocals) : LISLocals :=
  let search := upperBound s.ends 1 s.len x
  { ends := Function.update s.ends search.pos x
    len := if s.len < search.pos then search.pos else s.len
    searches := s.searches ++ [(s.len, search.reads)] }

end LearnGit.DynamicProgramming
