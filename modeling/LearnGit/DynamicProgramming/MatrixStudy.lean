import LearnGit.Lib.BinaryPower
import LearnGit.Lib.Checked

/-!
# `LearnGit.DynamicProgramming.MatrixStudy`: powers by squaring

`fast_power::fun`, `normal_power::fun` and `getAnswer` of the programs `fast_power.cpp`,
`normal_power.cpp` and `fibonacci_sequence_matrix.cpp` in
`dynamic_programming/topcoder/matrix_study`.

A product of `fast_power` that is no `long long` is undefined. `normal_power` is the exact power.
The entries of the Fibonacci matrices stay below 10000, so that their sums of products are far from
the end of a `long`. Their `operator=` flows off its end without a `return`, which makes every call
of it undefined in C++. `power` and `getAnswer` take it as a parameter, so that the rest of the
program can be looked at as well.
-/

set_option autoImplicit false

namespace LearnGit.DynamicProgramming.MatrixStudy

open LearnGit.Lib

/-! ### `fast_power.cpp` and `normal_power.cpp` -/

/-- `Max`. -/
def MAX : Int := 10000001

/-- `(s * t) % Max`. -/
def mulMax (s t : Int) : Option Int := (int64 (s * t)).map (·.tmod MAX)

/-- `fast_power::fun`. The loop has no round where `n` is negative. -/
def fastPower (x n : Int) : Option Int := powerLoop mulMax 1 x n.toNat

/-- `normal_power::fun`, for an `n` that is not negative. -/
def normalPower (x : Int) : Nat → Int
  | 0 => 1
  | 1 => x
  | n + 2 => x * normalPower x (n + 1)

/-! ### `fibonacci_sequence_matrix.cpp` -/

/-- `Matrix`: `matr[0][0]`, `matr[0][1]`, `matr[1][0]` and `matr[1][1]`. -/
structure Matrix where
  a : Int
  b : Int
  c : Int
  d : Int
  deriving DecidableEq, Repr

/-- `operator*`. -/
def Matrix.mul (m rhs : Matrix) : Matrix where
  a := (m.a * rhs.a + m.b * rhs.c).tmod 10000
  b := (m.a * rhs.b + m.b * rhs.d).tmod 10000
  c := (m.c * rhs.a + m.d * rhs.c).tmod 10000
  d := (m.c * rhs.b + m.d * rhs.d).tmod 10000

/-- `operator=`. It stores the entries, but returns no reference to the matrix. -/
def Matrix.assign (_m _rhs : Matrix) : Option Matrix := none

/-- An `operator=` that returns the reference. -/
def Matrix.assignReturning (_m rhs : Matrix) : Option Matrix := some rhs

section
variable (assign : Matrix → Matrix → Option Matrix)

/-- `power`, for an `n` that is not negative. `ans = ans * a` and `a = a * a` are the assignments. -/
def power (m : Matrix) (n : Nat) : Option Matrix :=
  powerLoop (fun m a => assign m (m.mul a)) ⟨1, 0, 0, 1⟩ m n

/-- `getAnswer`: the number it prints. -/
def getAnswer (n : Int) : Option Int :=
  if n = 0 then some 0
  else if n < 0 then some (-1)
  else if n = 1 ∨ n = 2 then some 1
  else do
    let result ← power assign ⟨1, 1, 1, 0⟩ (n - 2).toNat
    let ans ← assign ⟨1, 1, 1, 0⟩ result
    -- The entries are reduced, and their sum is not.
    some (ans.a + ans.b)

end

end LearnGit.DynamicProgramming.MatrixStudy
