import LearnGit.Lib.Loop

/-!
# `LearnGit.MaxSubsequenceSum`: three programs for the greatest sum of a block

`MaxSubsequenceSum` of `MaxSubsequenceSum01.c` (three loops), `MaxSubsequenceSum02.c` (two loops)
and `MaxSubsequenceSum03.c` (divide and conquer). An array is the function from an index to the
element there, and the arithmetic is exact.
-/

set_option autoImplicit false

namespace LearnGit.MaxSubsequenceSum

open LearnGit.Lib

/-- `MaxSubsequenceSum` of `MaxSubsequenceSum01.c`. -/
def maxSubsequenceSum01 (arr : Nat → Int) (n : Nat) : Int :=
  forUp 0 n (fun i _ _ MaxSum =>
    forUp i n (fun j _ _ MaxSum =>
      let ThisSum := forUp i (j + 1) (fun k _ _ ThisSum => ThisSum + arr k) 0
      if ThisSum > MaxSum then ThisSum else MaxSum) MaxSum) 0

/-- `MaxSum` and the sum that a loop adds up. -/
structure Sums where
  ThisSum : Int
  MaxSum : Int

/-- A round of such a loop with the element `x`. -/
def Sums.add (x : Int) (s : Sums) : Sums :=
  let ThisSum := s.ThisSum + x
  ⟨ThisSum, if ThisSum > s.MaxSum then ThisSum else s.MaxSum⟩

/-- `MaxSubsequenceSum` of `MaxSubsequenceSum02.c`. -/
def maxSubsequenceSum02 (arr : Nat → Int) (n : Nat) : Int :=
  forUp 0 n (fun i _ _ MaxSum =>
    (forUp i n (fun j _ _ (s : Sums) => s.add (arr j)) ⟨0, MaxSum⟩).MaxSum) 0

/-- `Max3`. -/
def max3 (a b c : Int) : Int :=
  let max := if a > b then a else b
  if max > c then max else c

/-- `MaxLeftBorderSum` as the loop from `Center` down to `left` leaves it. -/
def maxLeftBorderSum (arr : Nat → Int) (left Center : Nat) : Int :=
  (forDown left (Center + 1) (fun i (s : Sums) => s.add (arr i)) ⟨0, 0⟩).MaxSum

/-- `MaxRightBorderSum` as the loop from `Center + 1` up to `right` leaves it. -/
def maxRightBorderSum (arr : Nat → Int) (Center right : Nat) : Int :=
  (forUp (Center + 1) (right + 1) (fun i _ _ (s : Sums) => s.add (arr i)) ⟨0, 0⟩).MaxSum

/-- `MaxSubSum`. -/
def maxSubSum (arr : Nat → Int) (left right : Nat) (_h : left ≤ right) : Int :=
  if _heq : left = right then
    if arr left > 0 then arr left else 0
  else
    let Center := (left + right) / 2
    let MaxLeftSum := maxSubSum arr left Center (by omega)
    let MaxRightSum := maxSubSum arr (Center + 1) right (by omega)
    max3 MaxLeftSum MaxRightSum
      (maxLeftBorderSum arr left Center + maxRightBorderSum arr Center right)
termination_by right - left

/-- `MaxSubsequenceSum` of `MaxSubsequenceSum03.c`, for `n > 0`. -/
def maxSubsequenceSum03 (arr : Nat → Int) (n : Nat) : Int :=
  maxSubSum arr 0 (n - 1) (Nat.zero_le _)

end LearnGit.MaxSubsequenceSum
