import LearnGit.Lib.Checked

/-!
# `LearnGit.DynamicProgramming.LongestCommonSubsequence`: the table of lengths

`lcs_length` of `lcs/longest_common_subsequence.c`. The lengths that it is given are not negative.

A run is undefined where it reads outside of the two arrays, where it reads or writes outside of its
tables and where an `int` overflows. The cells of the tables are of type `char`, which has eight bits
and a sign, and hold anything at first.
-/

set_option autoImplicit false

namespace LearnGit.DynamicProgramming.LongestCommonSubsequence

open LearnGit.Lib

/-- The tables `b` and `c`. -/
structure Tables where
  b : Grid Int8
  c : Grid Int8

/-- Whether the calls of `malloc` succeed: one for the rows of a table and one for each row, first of
`b` and then of `c`. The first one that fails ends the function. -/
def allocate (malloc : Nat → Bool) (x_length y_length : Nat) : Option Bool := do
  let rows ← int32 (x_length + 1)
  if malloc 0 then
    let _columns ← int32 (y_length + 1)
    some ((List.range rows.toNat).all (fun i => malloc (1 + i)) && malloc (x_length + 2) &&
      (List.range rows.toNat).all fun i => malloc (x_length + 3 + i))
  else some false

/-- The body of the loops over `i` and `j`. -/
def lcsRound (x y : List UInt8) (i j : Nat) (t : Tables) : Option Tables := do
  let a ← x[i]?
  let a' ← y[j]?
  if a = a' then
    let before ← t.c.read (i - 1) (j - 1)
    let c ← t.c.write i j (Int8.ofInt (before.toInt + 1))
    let b ← t.b.write i j 0x5C
    some ⟨b, c⟩
  else
    let up ← t.c.read (i - 1) j
    let left ← t.c.read i (j - 1)
    if up.toInt ≥ left.toInt then
      let c ← t.c.write i j up
      let b ← t.b.write i j 0x7C
      some ⟨b, c⟩
    else
      let c ← t.c.write i j left
      let b ← t.b.write i j 0x2D
      some ⟨b, c⟩

/-- `lcs_length`, with what the two tables hold at first. -/
def lcsLength (malloc : Nat → Bool) (memory_b memory_c : Nat → Nat → Int8) (x : List UInt8)
    (x_length : Nat) (y : List UInt8) (y_length : Nat) : Option Int := do
  let allocated ← allocate malloc x_length y_length
  if allocated then
    let b := ⟨x_length + 1, y_length + 1, memory_b⟩
    let c := ⟨x_length + 1, y_length + 1, memory_c⟩
    let c ← forUpM 1 (x_length + 1) (fun i (c : Grid Int8) => c.write i 0 0) c
    let c ← forUpM 0 (y_length + 1) (fun i (c : Grid Int8) => c.write 0 i 0) c
    let t ← forUpM 1 (x_length + 1) (fun i => forUpM 1 (y_length + 1) (lcsRound x y i)) ⟨b, c⟩
    let last ← t.c.read x_length y_length
    some last.toInt
  else some (-1)

end LearnGit.DynamicProgramming.LongestCommonSubsequence
