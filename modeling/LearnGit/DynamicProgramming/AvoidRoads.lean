import LearnGit.FileTransfer.TextHeader
import LearnGit.Lib.Loop
import LearnGit.Lib.Numeral

/-!
# `LearnGit.DynamicProgramming.AvoidRoads`: ways through a grid

The three solutions of `dynamic_programming/topcoder/AvoidRoads`, `numWays` of `AvoidRoads.cpp`,
`AvoidRoads_player.cpp` and `AvoidRoads_improve.cpp`. A bad road is given as the text
`"x y x' y'"` of its end points.

A table is read and written within its bounds only: a call that reads a cell outside fails. The
numbers of ways are exact. The player keeps its table in a static variable, which is zero at the
first call and has a row and a column more than the largest grid.
-/

set_option autoImplicit false

namespace LearnGit.DynamicProgramming.AvoidRoads

open LearnGit.Lib

abbrev Text := List UInt8

/-! ### Tables -/

/-- `long long cell[rows][columns]`. -/
structure Table where
  rows : Nat
  columns : Nat
  cell : Nat → Nat → Int

/-- The table with the same number in every cell. -/
def Table.fill (rows columns : Nat) (x : Int) : Table := ⟨rows, columns, fun _ _ => x⟩

/-- The indices are those of a cell. -/
def Table.Inside (t : Table) (i j : Int) : Prop :=
  0 ≤ i ∧ i < t.rows ∧ 0 ≤ j ∧ j < t.columns

instance (t : Table) (i j : Int) : Decidable (t.Inside i j) := by
  unfold Table.Inside
  infer_instance

/-- The value of `t[i][j]`. -/
def Table.read (t : Table) (i j : Int) : Option Int :=
  if t.Inside i j then some (t.cell i.toNat j.toNat) else none

/-- `t[i][j] = x`. -/
def Table.write (t : Table) (i j : Int) (x : Int) : Option Table :=
  if t.Inside i j then
    some { t with cell := fun a b => if (a : Int) = i ∧ (b : Int) = j then x else t.cell a b }
  else none

/-! ### `AvoidRoads.cpp` -/

/-- `"%d %d %d %d"`. -/
def segmentText (a b c d : Nat) : Text :=
  printNat 10 a ++ 0x20 :: (printNat 10 b ++ 0x20 :: (printNat 10 c ++ 0x20 :: printNat 10 d))

/-- The value of `p` behind a loop over `bad`: the place of the road between the points, and
`bad.size()` where it is not there. -/
def badIndex (bad : List Text) (a b c d : Nat) : Nat :=
  bad.findIdx fun text => text == segmentText a b c d || text == segmentText c d a b

/-- `bad.size() != 0 && p != bad.size()`. -/
def isBad (bad : List Text) (a b c d : Nat) : Bool :=
  bad.length != 0 && badIndex bad a b c d != bad.length

/-- `blocked || D[i][j] == -1`: the cell is read where the left side is false. -/
def orCutOff (blocked : Bool) (D : Table) (i j : Int) : Option Bool :=
  if blocked then some true else (D.read i j).map (· == -1)

/-- The body of the loops of `numWays` of `AvoidRoads.cpp`. -/
def waysCell (bad : List Text) (i j : Nat) (D : Table) : Option Table :=
  if i = 0 ∧ j = 0 then D.write 0 0 1
  else if i ≠ 0 ∧ j = 0 then do
    let cutOff ← orCutOff (isBad bad (i - 1) j i j) D (i - 1) j
    if cutOff then D.write i j (-1)
    else
      let left ← D.read (i - 1) j
      if left ≠ -1 then D.write i j left else some D
  else if i = 0 ∧ j ≠ 0 then do
    let cutOff ← orCutOff (isBad bad i (j - 1) i j) D i (j - 1)
    if cutOff then D.write i j (-1)
    else
      -- the cell is the one on the left here too
      let left ← D.read (i - 1) j
      if left ≠ -1 then do
        let down ← D.read i (j - 1)
        D.write i j down
      else some D
  else do
    let left := badIndex bad (i - 1) j i j == bad.length
    let down := badIndex bad i (j - 1) i j == bad.length
    let fromLeft ← D.read (i - 1) j
    let fromDown ← D.read i (j - 1)
    if (!left && !down) || (fromLeft == -1 && fromDown == -1) || (!left && fromDown == -1) ||
        (fromLeft == -1 && !down) then D.write i j (-1)
    else if !left || fromLeft == -1 then D.write i j fromDown
    else if !down || fromDown == -1 then D.write i j fromLeft
    else D.write i j (fromLeft + fromDown)

/-- `numWays` of `AvoidRoads.cpp`. -/
def numWays (width height : Nat) (bad : List Text) : Option Int := do
  let D ← forUpM 0 (width + 1) (fun i => forUpM 0 (height + 1) (fun j => waysCell bad i j))
    (Table.fill (width + 1) (height + 1) (-2))
  D.read width height

/-! ### `AvoidRoads_improve.cpp` -/

/-- `dx`. -/
def dx (k : Nat) : Nat := if k = 0 then 1 else 0

/-- `dy`. -/
def dy (k : Nat) : Nat := if k = 0 then 0 else 1

/-- `t[tx][ty] += t[x][y]`. -/
def Table.addTo (t : Table) (tx ty x y : Nat) : Option Table := do
  let there ← t.read tx ty
  let here ← t.read x y
  t.write tx ty (there + here)

/-- The body of the innermost loop of `numWays` of `AvoidRoads_improve.cpp`. -/
def improveStep (width height : Nat) (bad : List Text) (i j k : Nat) (D : Table) : Option Table :=
  let tx := i + dx k
  let ty := j + dy k
  if tx > width ∨ ty > height then some D
  else if badIndex bad i j tx ty != bad.length then some D
  else D.addTo tx ty i j

/-- `numWays` of `AvoidRoads_improve.cpp`. -/
def numWaysImprove (width height : Nat) (bad : List Text) : Option Int := do
  let D ← (Table.fill (width + 1) (height + 1) 0).write 0 0 1
  let D ← forUpM 0 (width + 1) (fun i => forUpM 0 (height + 1) fun j =>
    forUpM 0 2 fun k => improveStep width height bad i j k) D
  D.read width height

/-! ### `AvoidRoads_player.cpp` -/

/-- The text behind the spaces at its front. -/
def skipSpaces (q : Text) : Text := q.dropWhile (· == 0x20)

/-- A token takes at least a character. -/
theorem skipSpaces_dropWhile_lt {q : Text} (h : q ≠ []) :
    (skipSpaces (q.dropWhile (· != 0x20))).length < q.length := by
  have hsub : ∀ q : Text, (skipSpaces q).length ≤ q.length := fun q =>
    (List.dropWhile_sublist _).length_le
  cases q with
  | nil => exact absurd rfl h
  | cons c cs =>
    rw [List.length_cons, Nat.lt_succ_iff]
    by_cases hc : c = 0x20
    · rw [List.dropWhile_cons_of_neg (by simpa using hc), skipSpaces,
        List.dropWhile_cons_of_pos (by simpa using hc)]
      exact hsub cs
    · rw [List.dropWhile_cons_of_pos (by simpa using hc)]
      exact (hsub _).trans (List.dropWhile_sublist _).length_le

/-- The loop of `tokenize`. -/
def tokenizeLoop (q : Text) : List Text :=
  if _h : q = [] then []
  else q.takeWhile (· != 0x20) :: tokenizeLoop (skipSpaces (q.dropWhile (· != 0x20)))
termination_by q.length
decreasing_by exact skipSpaces_dropWhile_lt _h

/-- `tokenize(s, " ")`. -/
def tokenize (s : Text) : List Text := tokenizeLoop (skipSpaces (cStr s))

/-- `sti`. -/
def sti (a : List Text) : List Int := a.map FileTransfer.TextHeader.atoi

/-- `pair<pair<int, int>, pair<int, int>>`. -/
abbrev Segment := (Int × Int) × (Int × Int)

/-- The two pairs that are put into `nt` for a text. -/
def ntPairs (text : Text) : Option (List Segment) :=
  match sti (tokenize text) with
  | s₀ :: s₁ :: s₂ :: s₃ :: _ => some [((s₀, s₁), (s₂, s₃)), ((s₂, s₁), (s₀, s₁))]
  | _ => none

/-- `nt`. -/
def ntOf (bad : List Text) : Option (List Segment) := (bad.mapM ntPairs).map List.flatten

/-- The body of the innermost loop of `numWays` of `AvoidRoads_player.cpp`. -/
def playerStep (nt : List Segment) (x y k : Nat) (ans : Table) : Option Table :=
  let tx := x + dx k
  let ty := y + dy k
  if nt.contains (((x : Int), (y : Int)), ((tx : Int), (ty : Int))) then some ans
  else ans.addTo tx ty x y

/-- `ans` before the first call. -/
def ansInit : Table := Table.fill 102 102 0

/-- `numWays` of `AvoidRoads_player.cpp`. -/
def numWaysPlayer (ans : Table) (width height : Nat) (bad : List Text) : Option Int := do
  let ans ← ans.write 0 0 1
  let nt ← ntOf bad
  let ans ← forUpM 0 (width + 1) (fun x => forUpM 0 (height + 1) fun y =>
    forUpM 0 2 fun k => playerStep nt x y k) ans
  ans.read width height

end LearnGit.DynamicProgramming.AvoidRoads
