import Mathlib
import LearnGit.Lib.Loop

/-!
# `LearnGit.DynamicProgramming.CutRod`: the best price of a rod

`cut_rod`, `memoized_cut_rod` and `bottom_up_cut_rod` of the programs in
`dynamic_programming/cut_rod`. The price table is the function from a length to its price.

`memoized_cut_rod_aux` changes the table that its callers hold, so that it returns the table too.
An entry of 0 is both one that was not computed and one that was found to be worth 0.
-/

set_option autoImplicit false

namespace LearnGit.DynamicProgramming.CutRod

open LearnGit.Lib

/-- `max`. -/
def max (a b : Int) : Int := if a > b then a else b

/-- `cut_rod`. -/
def cutRod (price : Nat → Int) (length : Nat) : Int :=
  if length ≤ 0 then 0
  else forUp 1 (length + 1) (fun i _hlo _hhi q => max q (price i + cutRod price (length - i))) 0
termination_by length

/-- The locals of a loop that fills a table: the best price so far and the table. -/
structure TableLocals where
  q : Int
  subproblemMethod : Nat → Int

/-- `memoized_cut_rod_aux`: the value it returns and the table it leaves. -/
def memoizedCutRodAux (price : Nat → Int) (length : Nat) (subproblemMethod : Nat → Int) :
    TableLocals :=
  if subproblemMethod length > 0 then ⟨subproblemMethod length, subproblemMethod⟩
  else
    let s := forUp 1 (length + 1) (fun i _hlo _hhi (s : TableLocals) =>
      let r := memoizedCutRodAux price (length - i) s.subproblemMethod
      ⟨max s.q (price i + r.q), r.subproblemMethod⟩) ⟨0, subproblemMethod⟩
    ⟨s.q, Function.update s.subproblemMethod length s.q⟩
termination_by length

/-- `memoized_cut_rod`. `calloc` says whether the table was allocated. -/
def memoizedCutRod (calloc : Bool) (price : Nat → Int) (length : Nat) : Int :=
  if length ≤ 0 then 0
  else if calloc then (memoizedCutRodAux price length fun _ => 0).q
  else -1

/-- The round of `bottom_up_cut_rod` for `j`. -/
def bottomUpRound (price : Nat → Int) (j : Nat) (subproblemMethod : Nat → Int) : Nat → Int :=
  let q := forUp 1 (j + 1) (fun i _ _ q => max q (price i + subproblemMethod (j - i))) 0
  Function.update subproblemMethod j q

/-- `bottom_up_cut_rod`. -/
def bottomUpCutRod (calloc : Bool) (price : Nat → Int) (length : Nat) : Int :=
  if length ≤ 0 then 0
  else if calloc then
    forUp 1 (length + 1) (fun j _ _ table => bottomUpRound price j table) (fun _ => 0) length
  else -1

end LearnGit.DynamicProgramming.CutRod
