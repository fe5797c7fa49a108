import LearnGit.Lib.Bytes
import LearnGit.Lib.Checked

/-!
# `LearnGit.DynamicProgramming.BadNeighbors`: donations around a well

`maxDonations` of `dynamic_programming/topcoder/badneighbors`, as `badneighbors_bottom_up.cpp` and
`badneighbors_bottom_up_next.cpp` have it, each with the `solve` of its class.

A run is undefined where it reads or writes outside of an array, where the size of an array is not
positive and where an `int` overflows. The array `dp` holds any numbers at first.
-/

set_option autoImplicit false

namespace LearnGit.DynamicProgramming.BadNeighbors

open LearnGit.Lib

/-- `max`. -/
def max (a b : Int) : Int := if a > b then a else b

/-- `int dp[b - a + 2]`. -/
def newArray (memory : Nat → Int) (a b : Int) : Option (Cells Int) := do
  let length ← int32 (b - a)
  let size ← int32 (length + 2)
  if 0 < size then some ⟨size.toNat, memory⟩ else none

/-! ### `badneighbors_bottom_up.cpp` -/

namespace BottomUp

/-- The locals of `solve` that its loop changes. -/
structure Locals where
  dp : Cells Int
  ans : Int

/-- The body of the loop over `j`. -/
def choose (arr : List Int) (i j : Nat) (dp : Cells Int) : Option (Cells Int) := do
  let here ← dp.read i
  let there ← dp.read j
  let donation ← arr[i]?
  let sum ← int32 (there + donation)
  dp.write i (max here sum)

/-- The body of the loop over `i`. -/
def solveRound (arr : List Int) (a i : Nat) (s : Locals) : Option Locals :=
  if i = a then do
    let donation ← arr[a]?
    let dp ← s.dp.write i donation
    some ⟨dp, donation⟩
  else do
    let donation ← arr[i]?
    let dp ← s.dp.write i donation
    let dp ← forUpM a (i - 1) (choose arr i) dp
    let here ← dp.read i
    some ⟨dp, if here > s.ans then here else s.ans⟩

/-- `solve`. -/
def solve (memory : Nat → Int) (a : Nat) (b : Int) (arr : List Int) : Option Int := do
  let dp ← newArray memory a b
  let s ← forUpM a (b + 1).toNat (solveRound arr a) ⟨dp, 0⟩
  some s.ans

/-- `maxDonations`, with what is in the memory at each call of `solve`. -/
def maxDonations (memory₁ memory₂ : Nat → Int) (donations : List Int) : Option Int := do
  let n := toInt32 donations.length
  let last ← int32 (n - 1)
  let a ← solve memory₁ 1 last donations
  let last ← int32 (n - 2)
  let b ← solve memory₂ 0 last donations
  some (if a > b then a else b)

end BottomUp

/-! ### `badneighbors_bottom_up_next.cpp` -/

namespace Next

/-- The body of the loop of `solve`. -/
def solveRound (donations : List Int) («begin» i : Nat) (dp : Cells Int) : Option (Cells Int) :=
  if i = «begin» then do
    let donation ← donations[i]?
    dp.write i donation
  else if i > «begin» + 1 then do
    let without ← dp.read ((i : Int) - 1)
    let before ← dp.read ((i : Int) - 2)
    let donation ← donations[i]?
    let sum ← int32 (before + donation)
    dp.write i (max without sum)
  else do
    let first ← donations[«begin»]?
    let second ← donations[«begin» + 1]?
    dp.write i (max first second)

/-- `solve`. -/
def solve (memory : Nat → Int) («begin» : Nat) («end» : Int) (donations : List Int) :
    Option Int := do
  let dp ← newArray memory «begin» «end»
  let dp ← forUpM «begin» («end» + 1).toNat (solveRound donations «begin») dp
  dp.read «end»

/-- `maxDonations`, with what is in the memory at each call of `solve`. -/
def maxDonations (memory₁ memory₂ : Nat → Int) (donations : List Int) : Option Int := do
  let n := toInt32 donations.length
  let last ← int32 (n - 2)
  let a ← solve memory₁ 0 last donations
  let last ← int32 (n - 1)
  let b ← solve memory₂ 1 last donations
  some (if a > b then a else b)

end Next

end LearnGit.DynamicProgramming.BadNeighbors
