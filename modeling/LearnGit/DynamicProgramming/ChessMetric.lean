import LearnGit.Lib.Loop

/-!
# `LearnGit.DynamicProgramming.ChessMetric`: the walks of a piece

`howMany` of `dynamic_programming/topcoder/ChessMetric/ChessMetric.cpp`. The table is read and
written within its bounds only, and its numbers are exact.
-/

set_option autoImplicit false

namespace LearnGit.DynamicProgramming.ChessMetric

open LearnGit.Lib

/-- `long long D[size][size][moves + 1]`. -/
structure Table where
  size : Nat
  moves : Nat
  cell : Nat → Nat → Nat → Int

/-- The table behind the loops that set its cells to 0. -/
def Table.zero (size moves : Nat) : Table := ⟨size, moves, fun _ _ _ => 0⟩

/-- The indices are those of a cell. -/
def Table.Inside (D : Table) (x y : Int) (k : Nat) : Prop :=
  0 ≤ x ∧ x < D.size ∧ 0 ≤ y ∧ y < D.size ∧ k ≤ D.moves

instance (D : Table) (x y : Int) (k : Nat) : Decidable (D.Inside x y k) := by
  unfold Table.Inside
  infer_instance

/-- The value of `D[x][y][k]`. -/
def Table.read (D : Table) (x y : Int) (k : Nat) : Option Int :=
  if D.Inside x y k then some (D.cell x.toNat y.toNat k) else none

/-- `D[x][y][k] = n`. -/
def Table.write (D : Table) (x y : Int) (k : Nat) (n : Int) : Option Table :=
  if D.Inside x y k then
    some { D with
      cell := fun a b c => if (a : Int) = x ∧ (b : Int) = y ∧ c = k then n else D.cell a b c }
  else none

/-- `next_step_arr`, as the constructor fills it. -/
def next_step_arr : List (Int × Int) :=
  [(1, 1), (1, 0), (1, -1), (0, -1), (-1, -1), (-1, 0), (-1, 1), (0, 1),
    (2, -1), (1, -2), (-1, -2), (-2, -1), (-2, 1), (-1, 2), (1, 2), (2, 1)]

/-- The body of the innermost loop. -/
def moveRound (size step i j k : Nat) (D : Table) : Option Table := do
  let d ← next_step_arr[k]?
  let next_position_x := i + d.1
  let next_position_y := j + d.2
  if next_position_x < 0 ∨ next_position_y < 0 ∨ next_position_x ≥ size ∨
      next_position_y ≥ size then some D
  else
    let there ← D.read next_position_x next_position_y step
    let here ← D.read i j (step - 1)
    D.write next_position_x next_position_y step (there + here)

/-- The body of the loop over `step`. -/
def stepRound (size step : Nat) (D : Table) : Option Table :=
  forUpM 0 size (fun i => forUpM 0 size fun j =>
    forUpM 0 next_step_arr.length fun k => moveRound size step i j k) D

/-- `howMany`. -/
def howMany (size : Nat) (start «end» : Int × Int) (numMoves : Nat) : Option Int := do
  let D ← (Table.zero size numMoves).write start.1 start.2 0 1
  let D ← forUpM 1 (numMoves + 1) (stepRound size) D
  D.read «end».1 «end».2 numMoves

end LearnGit.DynamicProgramming.ChessMetric
