import LearnGit.Lib.Checked

/-!
# `LearnGit.DynamicProgramming.FewestCoins`: the fewest coins for an amount

`min_coin` of `dynamic_programming/topcoder/coin.c` and `money_min::get_min` of
`dynamic_programming/topcoder/matrix_study/money_min.cpp`. Both fill a table of the numbers of coins
for the amounts from 0 to the given one.

A run is undefined where it reads or writes outside of its table and where an `int` overflows. The
table of `get_min` is an array of its own on the stack, which holds any numbers at first. The
denominations are not negative.
-/

set_option autoImplicit false

namespace LearnGit.DynamicProgramming.FewestCoins

open LearnGit.Lib

/-- A table of `int`. -/
abbrev Table := Cells Int

/-! ### `coin.c` -/

/-- The body of the loops of `min_coin`, for the amount `i` and the denomination `d`. -/
def coinRound (i : Nat) (min : Table) (d : Nat) : Option Table := do
  let here ← min.read i
  -- The first denomination is taken without a test against `i`.
  if here = 0 then
    let there ← min.read ((i : Int) - d)
    let sum ← int32 (there + 1)
    min.write i sum
  else if i ≥ d then
    let there ← min.read ((i : Int) - d)
    let sum ← int32 (there + 1)
    if here > sum then min.write i sum else some min
  else some min

/-- `min_coin`: the table it returns, where it is allocated. -/
def minCoin (calloc : Bool) (moneyValue : Nat) (moneyType : List Nat) : Option Table := do
  let _size ← int32 (moneyValue + 1)
  if calloc then
    forUpM 1 (moneyValue + 1) (fun i min => moneyType.foldlM (coinRound i) min)
      ⟨moneyValue + 1, fun _ => 0⟩
  else none

/-! ### `money_min.cpp` -/

/-- The body of the loops of `get_min`. -/
def minRound (i : Nat) (subproblem : Table) (d : Nat) : Option Table := do
  let there ← subproblem.read ((i : Int) - d)
  let sum ← int32 (there + 1)
  let here ← subproblem.read i
  if sum < here then subproblem.write i sum else some subproblem

/-- The table before its loops. The number of coins for `money` is what was in the memory. -/
def initTable (memory : Nat → Int) (money : Nat) : Option Table := do
  let subproblem ← forUpM 0 money (fun i (t : Table) => t.write i 1000000) ⟨money + 1, memory⟩
  subproblem.write 0 0

/-- The loops. The one over the denominations ends at the first one that is more than `i`. -/
def fillTable (money : Nat) (denominations : List Nat) (subproblem : Table) : Option Table :=
  forUpM 1 (money + 1) (fun i t => (denominations.takeWhile (· ≤ i)).foldlM (minRound i) t)
    subproblem

/-- `get_min`. -/
def getMin (memory : Nat → Int) (money : Nat) (denominations : List Nat) : Option Int := do
  let _size ← int32 (money + 1)
  let subproblem ← initTable memory money
  let subproblem ← fillTable money denominations subproblem
  subproblem.read money

end LearnGit.DynamicProgramming.FewestCoins
