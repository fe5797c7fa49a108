import Mathlib
import LearnGit.Lib.Loop

/-!
# `LearnGit.Sorting.SortProc`: the three sorts behind `sortProc`

`InsertionSort`, `Shellsort` and `Mergesort` of `sort/`, the functions that `main.c` can put
behind `sortProc`. What they print is left out.

An array is the function from an index to the element there, and the sorts give back the array as
they leave it. Indices are never negative where an element is accessed. The one sum of indices
that may not fit an `int` is the one for the centre of a segment in `MSort`, and the run is
undefined then: `none`.
-/

set_option autoImplicit false

namespace LearnGit.Sorting

open LearnGit.Lib

/-- An array of `int`. -/
abbrev IntArray := Nat → Int

/-- The greatest `int`. -/
def INT_MAX : Nat := 2 ^ 31 - 1

/-! ### Insertion sort -/

/-- `for(j = p; j > 0 && arr[j - 1] > Tmp; j--) arr[j] = arr[j - 1];`, with the array and the `j`
it ends with. -/
def insertionShift (Tmp : Int) : Nat → IntArray → IntArray × Nat
  | 0, arr => (arr, 0)
  | j + 1, arr =>
    if arr j > Tmp then insertionShift Tmp j (Function.update arr (j + 1) (arr j))
    else (arr, j + 1)

/-- The round of `InsertionSort` for `p`. -/
def insertionRound (p : Nat) (arr : IntArray) : IntArray :=
  let Tmp := arr p
  let (arr, j) := insertionShift Tmp p arr
  Function.update arr j Tmp

/-- `InsertionSort`. -/
def insertionSort (arr : IntArray) (n : Nat) : IntArray :=
  forUp 1 n (fun p _ _ arr => insertionRound p arr) arr

/-! ### Shellsort -/

/-- The loop over `j` of `Shellsort`, with the array and the `j` it ends with. -/
def shellShift {Increment : Nat} (hpos : 0 < Increment) (Tmp : Int) (j : Nat) (A : IntArray) :
    IntArray × Nat :=
  if _h : Increment ≤ j then
    if Tmp < A (j - Increment) then
      shellShift hpos Tmp (j - Increment) (Function.update A j (A (j - Increment)))
    else (A, j)
  else (A, j)
termination_by j

/-- The round of `Shellsort` for `i`. -/
def shellRound {Increment : Nat} (hpos : 0 < Increment) (i : Nat) (A : IntArray) : IntArray :=
  let Tmp := A i
  let (A, j) := shellShift hpos Tmp i A
  Function.update A j Tmp

/-- The loop over `i` of `Shellsort`. -/
def shellPass {Increment : Nat} (hpos : 0 < Increment) (N : Nat) (A : IntArray) : IntArray :=
  forUp Increment N (fun i _ _ A => shellRound hpos i A) A

/-- The loop over `Increment`. -/
def shellLoop (N Increment : Nat) (A : IntArray) : IntArray :=
  if hpos : 0 < Increment then shellLoop N (Increment / 2) (shellPass hpos N A) else A
termination_by Increment

/-- `Shellsort`. -/
def shellsort (A : IntArray) (N : Nat) : IntArray := shellLoop N (N / 2) A

/-! ### Mergesort -/

/-- The locals of `Merge` that its loops change. -/
structure MergeLocals where
  Lpos : Nat
  Rpos : Nat
  TmpPos : Nat
  TmpArray : IntArray

/-- `TmpArray[TmpPos++] = A[Lpos++]`. -/
def MergeLocals.takeLeft (A : IntArray) (m : MergeLocals) : MergeLocals :=
  { m with
    Lpos := m.Lpos + 1
    TmpPos := m.TmpPos + 1
    TmpArray := Function.update m.TmpArray m.TmpPos (A m.Lpos) }

/-- `TmpArray[TmpPos++] = A[Rpos++]`. -/
def MergeLocals.takeRight (A : IntArray) (m : MergeLocals) : MergeLocals :=
  { m with
    Rpos := m.Rpos + 1
    TmpPos := m.TmpPos + 1
    TmpArray := Function.update m.TmpArray m.TmpPos (A m.Rpos) }

/-- `while(Lpos <= LeftEnd && Rpos <= RightEnd)`. -/
def mergeBoth (A : IntArray) (LeftEnd RightEnd : Nat) (m : MergeLocals) : MergeLocals :=
  if _h : m.Lpos ≤ LeftEnd ∧ m.Rpos ≤ RightEnd then
    if A m.Lpos ≤ A m.Rpos then mergeBoth A LeftEnd RightEnd (m.takeLeft A)
    else mergeBoth A LeftEnd RightEnd (m.takeRight A)
  else m
termination_by (LeftEnd + 1 - m.Lpos) + (RightEnd + 1 - m.Rpos)
decreasing_by
  all_goals
    simp only [MergeLocals.takeLeft, MergeLocals.takeRight]
    omega

/-- `while(Lpos <= LeftEnd)`. -/
def mergeLeft (A : IntArray) (LeftEnd : Nat) (m : MergeLocals) : MergeLocals :=
  if _h : m.Lpos ≤ LeftEnd then mergeLeft A LeftEnd (m.takeLeft A) else m
termination_by LeftEnd + 1 - m.Lpos
decreasing_by
  simp only [MergeLocals.takeLeft]
  omega

/-- `while(Rpos <= RightEnd)`. -/
def mergeRight (A : IntArray) (RightEnd : Nat) (m : MergeLocals) : MergeLocals :=
  if _h : m.Rpos ≤ RightEnd then mergeRight A RightEnd (m.takeRight A) else m
termination_by RightEnd + 1 - m.Rpos
decreasing_by
  simp only [MergeLocals.takeRight]
  omega

/-- `Merge`, with `A` and `TmpArray` as it leaves them. The right half is not empty in front, so
`Rpos - 1` is an index. -/
def merge (A TmpArray : IntArray) (Lpos Rpos RightEnd : Nat) : IntArray × IntArray :=
  let LeftEnd := Rpos - 1
  let NumElements := RightEnd + 1 - Lpos
  let m := mergeBoth A LeftEnd RightEnd ⟨Lpos, Rpos, Lpos, TmpArray⟩
  let m := mergeRight A RightEnd (mergeLeft A LeftEnd m)
  -- `RightEnd` goes down with each round, so it is `RightEnd - i` in the round of `i`.
  (forUp 0 NumElements
    (fun i _ _ A => Function.update A (RightEnd - i) (m.TmpArray (RightEnd - i))) A, m.TmpArray)

/-- `MSort`. -/
def mSort (A TmpArray : IntArray) (Left Right : Nat) : Option (IntArray × IntArray) :=
  if _h : Left < Right then
    if Left + Right ≤ INT_MAX then do
      let Center := (Left + Right) / 2
      let (A, TmpArray) ← mSort A TmpArray Left Center
      let (A, TmpArray) ← mSort A TmpArray (Center + 1) Right
      return merge A TmpArray Left (Center + 1) Right
    else none
  else some (A, TmpArray)
termination_by Right - Left

/-- `Mergesort` on `N > 0` elements. `malloc` is what the call of `malloc` returns: `none` for
NULL, or an array of which the content is not known. -/
def mergesort (malloc : Option IntArray) (A : IntArray) (N : Nat) : Option IntArray :=
  match malloc with
  | none => some A
  | some TmpArray => (mSort A TmpArray 0 (N - 1)).map (·.1)

end LearnGit.Sorting
