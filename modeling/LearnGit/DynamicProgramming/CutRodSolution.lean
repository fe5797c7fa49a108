import LearnGit.Lib.Checked

/-!
# `LearnGit.DynamicProgramming.CutRodSolution`: the pieces of a rod

The programs of `dynamic_programming/cut_rod` that print how the rod is cut:
`extended_bottom_up_cut_rod.c`, and `memoized.c`, `bottom_up.c` and `memoized_having_cut_cost.c` of
`review`. They have the same price table, of the pieces up to 10.

A run is undefined where it reads behind the price table, where an `int` overflows, and where the
tables were not allocated. `cut_rod` of the memoized programs may call itself with the length it was
called with, so that its depth is bounded by `fuel`. The length of the rod is not negative. Operands
are evaluated from left to right.
-/

set_option autoImplicit false

namespace LearnGit.DynamicProgramming.CutRodSolution

open LearnGit.Lib

/-- `price`. -/
def price : List Int := [0, 1, 5, 8, 9, 10, 17, 17, 20, 24, 30]

/-- `PRICERANGE`. -/
def PRICERANGE : Nat := 11

/-- The loop of `main` that prints the pieces. It ends when the rod is used up, and where the
solution for a length is 0 it does not end. -/
def printPieces (solution : Nat → Nat) : Nat → Nat → Option (List Nat)
  | _, 0 => some []
  | 0, _ + 1 => none
  | fuel + 1, n + 1 =>
    (printPieces solution fuel (n + 1 - solution (n + 1))).map (solution (n + 1) :: ·)

/-- `perfectSolution_s`. -/
structure PerfectSolution where
  selectedPrice : Nat → Int
  selectedSolution : Nat → Nat

/-- `init_perfectSolution`: the tables are halves of one block. -/
def initPerfectSolution (calloc : Bool) (length : Nat) : Option PerfectSolution := do
  let _size ← int32 (2 * (length + 1))
  if calloc then some ⟨fun _ => 0, fun _ => 0⟩ else none

/-- `selectedPrice[length] = max; selectedSolution[length] = i;`. -/
def PerfectSolution.select (s : PerfectSolution) (length : Nat) (max : Int) (i : Nat) :
    PerfectSolution where
  selectedPrice := Function.update s.selectedPrice length max
  selectedSolution := Function.update s.selectedSolution length i

/-- The locals of a loop over the first piece. -/
structure CutLocals where
  max : Int
  ourSolution : PerfectSolution

/-! ### `review/memoized.c` -/

namespace Memoized

/-- The value of an expression, and the tables behind its calls of `cut_rod`. -/
abbrev Eval := PerfectSolution → Option (Int × PerfectSolution)

/-- `price[i] + cut_rod(length - i, price, ourSolution)`. -/
def pricedPiece (cutRod : Nat → Eval) (length i : Nat) : Eval := fun s => do
  let p ← price[i]?
  let (rest, s) ← cutRod (length - i) s
  let total ← int32 (p + rest)
  return (total, s)

/-- `cut_rod(i, price, ourSolution) + cut_rod(length - i, price, ourSolution)`. -/
def cutPiece (cutRod : Nat → Eval) (length i : Nat) : Eval := fun s => do
  let (first, s) ← cutRod i s
  let (rest, s) ← cutRod (length - i) s
  let total ← int32 (first + rest)
  return (total, s)

/-- The branch for a value that is more than `max`. The value is computed twice. -/
def takeMax (value : Eval) (length i : Nat) (l : CutLocals) : Option CutLocals := do
  let (total, s) ← value l.ourSolution
  if l.max < total then
    let (total, s) ← value s
    return ⟨total, s.select length total i⟩
  else return ⟨l.max, s⟩

/-- The round of `cut_rod` for `i`. -/
def cutRound (cutRod : Nat → Eval) (length i : Nat) (l : CutLocals) : Option CutLocals :=
  if i < PRICERANGE then takeMax (pricedPiece cutRod length i) length i l
  else if i > PRICERANGE then takeMax (cutPiece cutRod length i) length i l
  else some l

/-- `cut_rod`. -/
def cutRod : Nat → Nat → Eval
  | 0, _, _ => none
  | fuel + 1, length, s =>
    if length ≤ 0 then some (0, s)
    else if s.selectedPrice length > 0 then some (s.selectedPrice length, s)
    else (forUpM 1 (length + 1) (cutRound (cutRod fuel) length) ⟨0, s⟩).map fun l =>
      (l.ourSolution.selectedPrice length, l.ourSolution)

/-- `cut_rod_proc` for a length that is not 0. -/
def cutRodProc (fuel : Nat) (calloc : Bool) (length : Nat) : Option (Int × PerfectSolution) := do
  let s ← initPerfectSolution calloc length
  cutRod fuel length s

end Memoized

/-! ### `review/bottom_up.c` -/

namespace BottomUp

/-- The body of the loops of `cut_rod`. -/
def cutRound (j i : Nat) (l : CutLocals) : Option CutLocals := do
  let p ← price[i]?
  let total ← int32 (p + l.ourSolution.selectedPrice (j - i))
  if l.max < total then return ⟨total, l.ourSolution.select j total i⟩ else return l

/-- The round of `cut_rod` for `j`: `i <= j && i <= PRICERANGE`. -/
def cutLength (j : Nat) (s : PerfectSolution) : Option PerfectSolution :=
  (forUpM 1 (min j PRICERANGE + 1) (cutRound j) ⟨0, s⟩).map (·.ourSolution)

/-- `cut_rod`: the tables it leaves. -/
def cutRod (length : Nat) (s : PerfectSolution) : Option PerfectSolution :=
  forUpM 1 (length + 1) cutLength s

/-- `main`: the pieces it prints for a length that is not 0. A price of 0 is taken for an error. -/
def main (fuel : Nat) (calloc : Bool) (length : Nat) : Option (List Nat) := do
  let s ← initPerfectSolution calloc length
  let s ← cutRod length s
  if s.selectedPrice length = 0 then return [] else printPieces s.selectedSolution fuel length

end BottomUp

/-! ### `extended_bottom_up_cut_rod.c` -/

namespace Extended

/-- `cut_rod_method`. -/
structure CutRodMethod where
  subproblemPerfectPrice : Nat → Int
  subproblemPerfectMethod : Nat → Nat

/-- The locals of `bottom_up_cut_rod` that its inner loop changes. -/
structure MethodLocals where
  q : Int
  subproblemMethod : CutRodMethod

/-- The body of the inner loop. -/
def cutRound (j i : Nat) (l : MethodLocals) : Option MethodLocals := do
  -- A piece of 11 is taken for one that has a price.
  let first ← if i ≤ 11 then price[i]? else some (l.subproblemMethod.subproblemPerfectPrice i)
  let total ← int32 (first + l.subproblemMethod.subproblemPerfectPrice (j - i))
  if l.q < total then
    return ⟨total, { l.subproblemMethod with
      subproblemPerfectMethod :=
        Function.update l.subproblemMethod.subproblemPerfectMethod j i }⟩
  else return l

/-- The round of `bottom_up_cut_rod` for `j`. -/
def cutLength (j : Nat) (m : CutRodMethod) : Option CutRodMethod :=
  (forUpM 1 (j + 1) (cutRound j) ⟨0, m⟩).map fun l =>
    { l.subproblemMethod with
      subproblemPerfectPrice :=
        Function.update l.subproblemMethod.subproblemPerfectPrice j l.q }

/-- `bottom_up_cut_rod` for a length that is not 0: the tables it leaves. -/
def bottomUpCutRod (calloc : Bool) (length : Nat) : Option CutRodMethod := do
  let _size ← int32 (length + 1)
  if calloc then forUpM 1 (length + 1) cutLength ⟨fun _ => 0, fun _ => 0⟩ else none

/-- `main`: the pieces it prints. -/
def main (fuel : Nat) (calloc : Bool) (length : Nat) : Option (List Nat) := do
  let m ← bottomUpCutRod calloc length
  printPieces m.subproblemPerfectMethod fuel length

end Extended

/-! ### `review/memoized_having_cut_cost.c` -/

namespace CutCost

/-- `cutPrice`. -/
def cutPrice : Int := 1

/-- `perfectSolution_s`. -/
structure PerfectSolution where
  selectedPrice : Nat → Int
  selectedSolution : Nat → Nat
  cutCount : Nat → Int

/-- `init_perfectSolution`. -/
def initPerfectSolution (calloc : Bool) (length : Nat) : Option PerfectSolution := do
  let _size ← int32 (3 * (length + 1))
  if calloc then some ⟨fun _ => 0, fun _ => 0, fun _ => 0⟩ else none

/-- The locals of the loop of `cut_rod`. -/
structure CutLocals where
  max : Int
  ourSolution : PerfectSolution

/-- The assignments for a value that is more than `max`. -/
def CutLocals.select (l : CutLocals) (length i : Nat) (total cutCountTem : Int) : CutLocals where
  max := total
  ourSolution := {
    selectedPrice := Function.update l.ourSolution.selectedPrice length total
    selectedSolution := Function.update l.ourSolution.selectedSolution length i
    cutCount := Function.update l.ourSolution.cutCount length cutCountTem }

/-- `if(max < first + rest - cutPrice * cutCountTem)` with its assignments. -/
def takeMax (length i : Nat) (first rest cutCountTem : Int) (l : CutLocals) :
    Option CutLocals := do
  -- The cost of the cuts in `rest` has been subtracted from it before.
  let sum ← int32 (first + rest)
  let cost ← int32 (cutPrice * cutCountTem)
  let total ← int32 (sum - cost)
  if l.max < total then return l.select length i total cutCountTem else return l

/-- The round of `cut_rod` for `i`. The calls in it are made for the tables they leave. -/
def cutRound (cutRod : Nat → PerfectSolution → Option PerfectSolution) (length i : Nat)
    (l : CutLocals) : Option CutLocals :=
  if i < PRICERANGE then do
    let s ← cutRod (length - i) l.ourSolution
    let cutCountTem ← if i = length then some 0 else int32 (s.cutCount (length - i) + 1)
    let p ← price[i]?
    takeMax length i p (s.selectedPrice (length - i)) cutCountTem ⟨l.max, s⟩
  else if i > PRICERANGE then do
    let s ← cutRod i l.ourSolution
    let s ← cutRod (length - i) s
    let cutCountTem ←
      if i = length then some 0 else int32 (s.cutCount i + s.cutCount (length - i) + 1)
    takeMax length i (s.selectedPrice i) (s.selectedPrice (length - i)) cutCountTem ⟨l.max, s⟩
  else some l

/-- `cut_rod`: the tables it leaves. -/
def cutRod : Nat → Nat → PerfectSolution → Option PerfectSolution
  | 0, _, _ => none
  | fuel + 1, length, s =>
    if length ≤ 0 then some s
    else if s.selectedPrice length > 0 then some s
    else (forUpM 1 (length + 1) (cutRound (cutRod fuel) length) ⟨0, s⟩).map (·.ourSolution)

/-- `cut_rod_proc` for a length that is not 0: what it returns, and the tables. -/
def cutRodProc (fuel : Nat) (calloc : Bool) (length : Nat) :
    Option (Int × PerfectSolution) := do
  let s ← initPerfectSolution calloc length
  let s ← cutRod fuel length s
  return (s.selectedPrice length, s)

end CutCost

end LearnGit.DynamicProgramming.CutRodSolution
