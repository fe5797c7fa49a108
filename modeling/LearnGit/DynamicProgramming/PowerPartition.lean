import LearnGit.Lib.BinaryPower
import LearnGit.Lib.Checked

/-!
# `LearnGit.DynamicProgramming.PowerPartition`: the number of sums of powers

`PowerPartition::count` of `dynamic_programming/topcoder/PowerPartition/PowerPartition.cpp`, with
the class `Matrix`.

The elements of a matrix are in a block of memory, row by row. A run is undefined where it reads or
writes outside of a block or reads what was not written to, and where a `long long` overflows. The
copies that are made of a matrix have its elements, and are not modelled.
-/

set_option autoImplicit false

namespace LearnGit.DynamicProgramming.PowerPartition

open LearnGit.Lib

/-- `mod`. -/
def mod : Int := 1000000007

/-- `mod2`. -/
def mod2 : Int := mod * mod

/-! ### Memory -/

/-- A block of `int`. What was not written to has no value. -/
abbrev Block := Cells (Option Int)

/-- `malloc`. -/
def malloc (size : Nat) : Block := ⟨size, fun _ => none⟩

/-- `calloc`. -/
def calloc (size : Nat) : Block := ⟨size, fun _ => some 0⟩

/-- The value at an index. -/
def load (b : Block) (i : Nat) : Option Int := (b.read i).bind id

/-- An assignment to the element at an index. -/
def store (b : Block) (i : Nat) (x : Int) : Option Block := b.write i (some x)

/-! ### Matrices -/

/-- `Matrix`. -/
structure Matrix where
  n : Nat
  m : Nat
  data : Block

/-- `Matrix(int n, int m)`. -/
def Matrix.init (n m : Nat) : Matrix := ⟨n, m, calloc (n * m)⟩

/-- `identify`. -/
def Matrix.identify (a : Matrix) : Option Matrix :=
  (forUpM 0 a.n (fun i data => store data (i * (a.m + 1)) 1) a.data).map fun data => { a with data }

/-- The loops that fill `tmp` with the columns of a matrix of this size. -/
def transpose (rows columns : Nat) (data : Block) : Option Block :=
  forUpM 0 columns (fun i => forUpM 0 rows fun j tmp => do
    let x ← load data (j * columns + i)
    store tmp (i * rows + j) x) (malloc (rows * columns))

/-- The body of the loop over `k`, for the elements at `pa` and `pb`. -/
def sumRound (data tmp : Block) (pa pb k : Nat) (sum : Int) : Option Int := do
  let x ← load data (pa + k)
  let y ← load tmp (pb + k)
  let product ← int64 (x * y)
  let sum ← int64 (sum + product)
  -- The sum is kept below `mod2`.
  some (if sum ≥ mod2 then sum - mod2 else sum)

/-- The loops that fill `ans`, with rows of `m` elements in `data` and in `tmp`. -/
def products (n m columns : Nat) (data tmp ans : Block) : Option Block :=
  forUpM 0 n (fun i => forUpM 0 columns fun j ans => do
    let sum ← forUpM 0 m (sumRound data tmp (i * m) (j * m)) 0
    store ans (i * columns + j) (sum.tmod mod)) ans

/-- `operator*`. -/
def Matrix.mul (this a : Matrix) : Option Matrix := do
  let tmp ← transpose a.n a.m a.data
  let ans ← products this.n this.m a.m this.data tmp (calloc (this.n * a.m))
  some ⟨this.n, a.m, ans⟩

/-- `operator*=`. The product is copied when it is complete. -/
def Matrix.mulAssign (this a : Matrix) : Option Matrix := do
  let tmp ← transpose this.n this.n a.data
  let ans ← products this.n this.n this.n this.data tmp (malloc (this.n * this.n))
  let data ← forUpM 0 (this.n * this.n) (fun i data => do
    let x ← load ans i
    store data i x) this.data
  some { this with data }

/-- `operator^`, for an `x` that is not negative. -/
def Matrix.pow (this : Matrix) (x : Nat) : Option Matrix := do
  let ans ← (Matrix.init this.n this.m).identify
  powerLoop Matrix.mulAssign ans this x

/-! ### The count -/

/-- The loop that fills `v` with the powers of `M` up to `X`, where `x` is the last one. -/
def powers {M : Nat} (hM : 2 ≤ M) (X : Nat) {x : Nat} (hx : 0 < x) (v : List Nat) :
    Option (List Nat) :=
  if _h : X / x < M then some v
  else do
    -- By the test the product is no more than `X`.
    let _x ← int64 (x * M : Nat)
    powers hM X (Nat.mul_pos hx (by omega) : 0 < x * M) (v ++ [x * M])
termination_by X / x
decreasing_by
  rw [← Nat.div_div_eq_div_mul]
  exact Nat.div_lt_self (by omega) hM

/-- The matrix `a` of the round of `i`: a column of 1 above the diagonal. -/
def column (n i : Nat) : Option Matrix := do
  let a ← (Matrix.init n n).identify
  let data ← forUpM 0 i (fun j data => store data (j * n + i) 1) a.data
  some { a with data }

/-- The loop that fills `w`. -/
def weights (n M : Nat) : Option (List Matrix) := do
  let first ← (Matrix.init n n).identify
  forUpM 1 n (fun i w => do
    let a ← column n i
    let last ← w.getLast?
    let power ← last.pow M
    let next ← a.mul power
    some (w ++ [next])) [first]

/-- What the loop over the digits changes. -/
structure Digits where
  X : Nat
  b : Matrix

/-- The body of the loop over the digits. -/
def digitRound (v : List Nat) (w : List Matrix) (i : Nat) (s : Digits) : Option Digits := do
  let value ← v[i]?
  let weight ← w[i]?
  let power ← weight.pow (s.X / value)
  let b ← power.mul s.b
  some ⟨s.X % value, b⟩

/-- `count`. -/
def count {M : Nat} (hM : 2 ≤ M) (X : Nat) : Option Int := do
  let v ← powers hM X Nat.one_pos [1]
  let n := v.length
  let w ← weights n M
  let b ← (Matrix.init n n).identify
  let s ← forDown 0 n (fun i o => o.bind (digitRound v w i)) (some ⟨X, b⟩)
  let ans ← forUpM 0 n (fun i ans => do
    let x ← load s.b.data i
    int64 (ans + x)) 0
  some (ans.tmod mod)

end LearnGit.DynamicProgramming.PowerPartition
