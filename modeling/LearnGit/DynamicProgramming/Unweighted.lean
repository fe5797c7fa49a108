import Mathlib.Logic.Function.Basic
import Mathlib.Tactic.Common

/-!
# `LearnGit.DynamicProgramming.Unweighted`: distances in a graph without weights

`Unweighted` of `dynamic_programming/graph/unweighted.cpp`, with the table that `main` gives it. The
vertices are those of the table, and `adj` has the successors of each. The distances are exact.
-/

set_option autoImplicit false

namespace LearnGit.DynamicProgramming.Unweighted

variable {NumVertex : Nat}

/-- `Table`, for one vertex. -/
structure Table where
  Known : Int
  Dist : Int

/-- The table and the queue. -/
structure State (NumVertex : Nat) where
  T : Fin NumVertex → Table
  que : List (Fin NumVertex)

/-- `T[v].Known = 1`. -/
def setKnown (T : Fin NumVertex → Table) (v : Fin NumVertex) : Fin NumVertex → Table :=
  Function.update T v { T v with Known := 1 }

/-- The body of the loop over the successors of `front_value`. -/
def successor (front_value : Fin NumVertex) (s : State NumVertex) (p : Fin NumVertex) :
    State NumVertex :=
  if (s.T p).Known = 0 then
    if (s.T p).Dist = -1 then
      ⟨Function.update s.T p { s.T p with Dist := (s.T front_value).Dist + 1 }, s.que ++ [p]⟩
    -- It is queued again, also where it is in the queue already.
    else ⟨s.T, s.que ++ [p]⟩
  else s

/-- The body of `while(!que.empty())`, for the queue behind its front. -/
def round (adj : Fin NumVertex → List (Fin NumVertex)) (front_value : Fin NumVertex)
    (rest : List (Fin NumVertex)) (T : Fin NumVertex → Table) : State NumVertex :=
  (adj front_value).foldl (successor front_value) ⟨setKnown T front_value, rest⟩

/-- `while(!que.empty())`, with at most this number of rounds. -/
def rounds (adj : Fin NumVertex → List (Fin NumVertex)) :
    Nat → State NumVertex → Option (Fin NumVertex → Table)
  | _, ⟨T, []⟩ => some T
  | 0, _ => none
  | fuel + 1, ⟨T, front_value :: rest⟩ => rounds adj fuel (round adj front_value rest T)

/-- `Unweighted`. -/
def unweighted (fuel : Nat) (T : Fin NumVertex → Table)
    (adj : Fin NumVertex → List (Fin NumVertex)) (begin : Fin NumVertex) :
    Option (Fin NumVertex → Table) :=
  rounds adj fuel ⟨T, [begin]⟩

/-- The table before the call. -/
def initTable (begin : Fin NumVertex) : Fin NumVertex → Table :=
  Function.update (fun _ => ⟨0, -1⟩) begin ⟨0, 0⟩

end LearnGit.DynamicProgramming.Unweighted
