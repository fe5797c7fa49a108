import LearnGit.Lib.Checked
import LearnGit.Sorting.SortProc

/-!
# `LearnGit.Sorting.MergesortNonrecursion`: merging runs of growing width

`mergesort` of `sort/merge/mergesort_nonrecursion.c`. Both arrays have `n` elements and are read and
written within their bounds only. The run is undefined as well where an index that is computed does
not fit an `int`.
-/

set_option autoImplicit false

namespace LearnGit.Sorting.MergesortNonrecursion

open LearnGit.Lib

/-- An array of this size. -/
abbrev Buffer := Cells Int

/-- An index that is computed. -/
def index (i : Nat) : Option Nat := if i ≤ INT_MAX then some i else none

/-- What `while(left_min < left_max && right_min < right_max)` ends with. -/
structure Merged where
  left_min : Nat
  right_min : Nat
  next : Nat
  tmp : Buffer

/-- `while(left_min < left_max && right_min < right_max)`. -/
def mergeBoth (arr : Buffer) (left_max right_max left_min right_min next : Nat) (tmp : Buffer) :
    Option Merged :=
  if _h : left_min < left_max ∧ right_min < right_max then do
    let left ← arr.read left_min
    let right ← arr.read right_min
    let _next ← index (next + 1)
    if left > right then
      let _right ← index (right_min + 1)
      let tmp ← tmp.write next right
      mergeBoth arr left_max right_max left_min (right_min + 1) (next + 1) tmp
    else
      -- Of equal elements the left one comes first.
      let _left ← index (left_min + 1)
      let tmp ← tmp.write next left
      mergeBoth arr left_max right_max (left_min + 1) right_min (next + 1) tmp
  else some ⟨left_min, right_min, next, tmp⟩
termination_by (left_max - left_min) + (right_max - right_min)

/-- `while(left_min < left_max) arr[--right_min] = arr[--left_max];`, with the `right_min` it ends
with. -/
def shiftLeft (left_min left_max right_min : Nat) (arr : Buffer) : Option (Nat × Buffer) :=
  if _h : left_min < left_max then do
    let x ← arr.read ((left_max : Int) - 1)
    let arr ← arr.write ((right_min : Int) - 1) x
    shiftLeft left_min (left_max - 1) (right_min - 1) arr
  else some (right_min, arr)
termination_by left_max

/-- `while(next > 0) arr[--right_min] = tmp[--next];`. -/
def copyBack (tmp : Buffer) : (next : Nat) → (right_min : Nat) → Buffer → Option Buffer
  | 0, _, arr => some arr
  | next + 1, right_min, arr => do
    let x ← tmp.read next
    let arr ← arr.write ((right_min : Int) - 1) x
    copyBack tmp next (right_min - 1) arr

/-- The end of the right run. -/
def rightMax (n i left_min : Nat) : Nat :=
  if left_min + i + i > n then n else left_min + i + i

/-- The two arrays. -/
structure Arrays where
  arr : Buffer
  tmp : Buffer

/-- The body of the loops: two runs of the width `i` are merged, the second one cut at the end. -/
def mergeRuns (n i left_min : Nat) (s : Arrays) : Option Arrays := do
  let left_max ← index (left_min + i)
  let _right_max ← index (left_max + i)
  let m ← mergeBoth s.arr left_max (rightMax n i left_min) left_min left_max 0 s.tmp
  let (right_min, arr) ← shiftLeft m.left_min left_max m.right_min s.arr
  let arr ← copyBack m.tmp m.next right_min arr
  return ⟨arr, m.tmp⟩

/-- The loop over `left_min`. -/
def mergePass (n : Nat) {i : Nat} (hpos : 0 < i) (left_min : Nat) (s : Arrays) : Option Arrays :=
  if _h : left_min < n - i then do
    let s ← mergeRuns n i left_min s
    mergePass n hpos (rightMax n i left_min) s
  else some s
termination_by n - left_min
decreasing_by
  rw [rightMax]
  split <;> omega

/-- The loop over `i`. -/
def mergeLoop (n i : Nat) (s : Arrays) : Option Arrays :=
  if h : 0 < i ∧ i < n then do
    let s ← mergePass n h.1 0 s
    let _i ← index (i * 2)
    mergeLoop n (i * 2) s
  else some s
termination_by n - i

/-- `mergesort`. Where there is no space the program aborts, and there is no result. -/
def mergesort (malloc : Option IntArray) (arr : IntArray) (n : Nat) : Option IntArray := do
  let tmp ← malloc
  let s ← mergeLoop n 1 ⟨⟨n, arr⟩, ⟨n, tmp⟩⟩
  return s.arr.cell

end LearnGit.Sorting.MergesortNonrecursion
