import LearnGit.Lib.Bytes
import LearnGit.Lib.Checked

/-!
# `LearnGit.DynamicProgramming.EditDistance`: the table of distances

`EditDistance` of `editDistance/editDistance.c`, and the call that `main` makes with the lengths of
its two arguments.

The cells of the table are of type `char`, which has eight bits and a sign. They hold anything at
first. A run is undefined where it reads or writes outside of a string or of the table and where an
`int` overflows.
-/

set_option autoImplicit false

namespace LearnGit.DynamicProgramming.EditDistance

open LearnGit.Lib

/-- `minimum3`. -/
def minimum3 (a b c : Int) : Int :=
  let minimum := if a < b then a else b
  if minimum < c then minimum else c

/-- The body of the loops over `j` and `i`. -/
def editRound (s n : List UInt8) (j i : Nat) (d : Grid Int8) : Option (Grid Int8) := do
  let c ← s[i]?
  let c' ← n[j]?
  let before ← d.read i j
  if c = c' then d.write (i + 1) (j + 1) before
  else
    let up ← d.read i (j + 1)
    let left ← d.read (i + 1) j
    d.write (i + 1) (j + 1)
      (Int8.ofInt (minimum3 (up.toInt + 1) (left.toInt + 1) (before.toInt + 1)))

/-- `char d[s_size + 1][n_size + 1]`. -/
def newTable (memory : Nat → Nat → Int8) (s_size n_size : Int) : Option (Grid Int8) := do
  let rows ← int32 (s_size + 1)
  let columns ← int32 (n_size + 1)
  if 0 < rows ∧ 0 < columns then some ⟨rows.toNat, columns.toNat, memory⟩ else none

/-- `EditDistance`. -/
def editDistance (memory : Nat → Nat → Int8) (s : List UInt8) (s_size : Int) (n : List UInt8)
    (n_size : Int) : Option Int8 := do
  let d ← newTable memory s_size n_size
  let d ← forUpM 0 (s_size + 1).toNat (fun i d => d.write i 0 (Int8.ofInt i)) d
  let d ← forUpM 0 (n_size + 1).toNat (fun j d => d.write 0 j (Int8.ofInt j)) d
  let d ← forUpM 0 n_size.toNat (fun j => forUpM 0 s_size.toNat (editRound s n j)) d
  d.read s_size.toNat n_size.toNat

/-- The call in `main`. -/
def distanceOf (memory : Nat → Nat → Int8) (s n : List UInt8) : Option Int8 :=
  editDistance memory s (toInt32 s.length) n (toInt32 n.length)

end LearnGit.DynamicProgramming.EditDistance
