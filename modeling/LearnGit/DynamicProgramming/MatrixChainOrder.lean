import LearnGit.DynamicProgramming.AvoidRoads

/-!
# `LearnGit.DynamicProgramming.MatrixChainOrder`: the order of a product of matrices

`matrix_chain_order` of `dynamic_programming/matrix_multiply/matrix_chain_order.c`. The matrix `i`
of the product has `price[i - 1]` rows and `price[i]` columns, so that `length` numbers are given
for `length - 1` matrices.

The costs are exact. The array and the tables are read and written within their bounds only, and so
is the record that the tables are returned in. It is allocated with the size of a pointer to it. A
run is undefined, `none`, where it stores to bytes outside of that block.
-/

set_option autoImplicit false

namespace LearnGit.DynamicProgramming.MatrixChainOrder

open LearnGit.Lib
open LearnGit.DynamicProgramming.AvoidRoads (Table)

/-! ### The record -/

/-- `chain_optimal_order`. -/
structure ChainOptimalOrder where
  m : Table
  mLength : Nat
  mWidth : Nat
  s : Table
  sLength : Nat
  sWidth : Nat

/-- The fields of the record. -/
inductive Field where
  | m
  | mLength
  | mWidth
  | s
  | sLength
  | sWidth
  deriving DecidableEq, Repr

/-- The first byte of a field. A pointer has eight bytes and an `int` four. -/
def Field.offset : Field → Nat
  | .m => 0
  | .mLength => 8
  | .mWidth => 12
  | .s => 16
  | .sLength => 24
  | .sWidth => 28

def Field.size : Field → Nat
  | .m | .s => 8
  | .mLength | .mWidth | .sLength | .sWidth => 4

/-- `sizeof(chain_optimal_order *)`. -/
def SIZEOF_POINTER : Nat := 8

/-- An assignment to a field of a record in a block of this size. -/
def storeField (block : Nat) (field : Field) : Option Unit :=
  if field.offset + field.size ≤ block then some () else none

/-- The assignments to the fields of `order_p`. -/
def makeOrder (block : Nat) (m s : Table) (length : Nat) : Option ChainOptimalOrder := do
  storeField block .m
  storeField block .s
  storeField block .mLength
  storeField block .mWidth
  storeField block .sLength
  storeField block .sWidth
  some ⟨m, length, length, s, length - 1, length - 1⟩

/-! ### The tables -/

/-- `m` and `s`. -/
structure Tables where
  m : Table
  s : Table

/-- The tables as they are allocated. -/
def Tables.zero (length : Nat) : Tables :=
  ⟨Table.fill (length + 1) length 0, Table.fill length length 0⟩

/-- The body of the loops, for the split of `i` to `j` at `k`. -/
def splitRound (price : List Int) (i j k : Nat) (t : Tables) :
    Option Tables := do
  let left ← t.m.read i k
  let right ← t.m.read (k + 1 : Nat) j
  let rows ← price[i - 1]?
  let inner ← price[k]?
  let columns ← price[j]?
  let q := left + right + rows * inner * columns
  let here ← t.m.read i j
  -- 0 is the mark of a cell without a cost.
  if q < here ∨ here = 0 then
    let m ← t.m.write i j q
    let s ← t.s.write i j k
    some ⟨m, s⟩
  else some t

/-- The loops. `l` is the number of factors, and `i` the first one. -/
def fillTables (price : List Int) (t : Tables) : Option Tables :=
  forUpM 2 (price.length + 1) (fun l =>
    forUpM 1 (price.length - l + 1) fun i =>
      forUpM i (i + l - 1) fun k => splitRound price i (i + l - 1) k) t

/-- The calls of `malloc` and `calloc` for the tables: two arrays of rows, and their rows. -/
def tableAllocs (length : Nat) : Nat := 2 + (length + 1) + length

/-- `matrix_chain_order`. `calloc` says which of the allocations succeed, and the result is
`some none` where a null pointer is returned. -/
def matrixChainOrder (calloc : Nat → Bool) (price : List Int) :
    Option (Option ChainOptimalOrder) :=
  if price.length = 0 then some none
  else if ¬∀ i < tableAllocs price.length, calloc i = true then some none
  else do
    let t ← fillTables price (Tables.zero price.length)
    if calloc (tableAllocs price.length) then
      -- The block has the size of a pointer to the record.
      let order ← makeOrder SIZEOF_POINTER t.m t.s price.length
      some (some order)
    else some none

end LearnGit.DynamicProgramming.MatrixChainOrder
