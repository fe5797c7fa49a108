import Mathlib.Logic.Function.Basic
import Mathlib.Tactic.Common

/-!
# `LearnGit.DynamicProgramming.BFS`: the breadth-first traversal of a graph

The class `Graph` of `dynamic_programming/graph/BFS.cpp`. The vertices are the numbers below `V`,
and the output is the list of the vertices that are printed.
-/

set_option autoImplicit false

namespace LearnGit.DynamicProgramming.BFS

variable {V : Nat}

/-- `Graph`. -/
structure Graph (V : Nat) where
  adj : Fin V → List (Fin V)

/-- `Graph(int V)`. -/
def Graph.init (V : Nat) : Graph V := ⟨fun _ => []⟩

/-- `addEdge`. -/
def Graph.addEdge (g : Graph V) (v w : Fin V) : Graph V :=
  ⟨Function.update g.adj v (g.adj v ++ [w])⟩

/-- The graph that is built by these calls of `addEdge`. -/
def Graph.build (edges : List (Fin V × Fin V)) : Graph V :=
  edges.foldl (fun g e => g.addEdge e.1 e.2) (Graph.init V)

/-- The locals of `BFSUtil` that its loop changes, and what is printed. -/
structure State (V : Nat) where
  visited : Fin V → Bool
  queue : List (Fin V)
  printed : List (Fin V)

/-- The body of the loop over `adj[v]`. -/
def successor (s : State V) (i : Fin V) : State V :=
  if !s.visited i then
    { s with visited := Function.update s.visited i true, queue := s.queue ++ [i] }
  else s

/-- The body of `while(!queue.empty())`, for the queue behind its front `v`. -/
def round (g : Graph V) (v : Fin V) (rest : List (Fin V)) (s : State V) : State V :=
  (g.adj v).foldl successor { s with queue := rest, printed := s.printed ++ [v] }

/-- `while(!queue.empty())`, with at most this number of rounds. -/
def rounds (g : Graph V) : Nat → State V → Option (List (Fin V))
  | _, ⟨_, [], printed⟩ => some printed
  | 0, _ => none
  | fuel + 1, ⟨visited, v :: rest, printed⟩ =>
    rounds g fuel (round g v rest ⟨visited, v :: rest, printed⟩)

/-- `BFSUtil`. -/
def Graph.BFSUtil (g : Graph V) (fuel : Nat) (v : Fin V) (visited : Fin V → Bool) :
    Option (List (Fin V)) :=
  rounds g fuel ⟨Function.update visited v true, [v], []⟩

/-- `BFS`. -/
def Graph.BFS (g : Graph V) (fuel : Nat) (v : Fin V) : Option (List (Fin V)) :=
  g.BFSUtil fuel v fun _ => false

end LearnGit.DynamicProgramming.BFS
