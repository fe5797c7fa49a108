import LearnGit.DynamicProgramming.BFS
import LearnGit.Lib.BreadthFirst
import Mathlib.Data.Fintype.Card

/-!
# `LearnGit.Proofs.DynamicProgramming.BFS`: the order of the traversal

`bfs_order`: for every graph and every start, the traversal ends, and it prints the vertices that
are reached, each once and in an order of growing distance.

A vertex is marked when it is queued. With the marks read as levels, a round is a visit of a
breadth-first search (`Traverses.round`), and what is printed is the order of the visits
(`Visited`). Every round prints a vertex that was not printed before, so that there are no more
rounds than vertices (`rounds_end`).
-/

set_option autoImplicit false

namespace LearnGit.Proofs.DynamicProgramming.BFS

open LearnGit.Lib
open LearnGit.DynamicProgramming.BFS

variable {V : Nat}

/-! ### The graph -/

/-- The ends of the edges that begin at a vertex, in the order of the calls. -/
def successors (edges : List (Fin V × Fin V)) (v : Fin V) : List (Fin V) :=
  (edges.filter fun e => e.1 = v).map Prod.snd

/-- Adding edges appends their ends to the lists of their starts. -/
theorem foldl_addEdge_adj (edges : List (Fin V × Fin V)) (g : Graph V) (v : Fin V) :
    (edges.foldl (fun g e => g.addEdge e.1 e.2) g).adj v = g.adj v ++ successors edges v := by
  induction edges generalizing g with
  | nil => exact (List.append_nil _).symm
  | cons e edges ih =>
    rw [List.foldl_cons, ih, successors, successors]
    show Function.update g.adj e.1 (g.adj e.1 ++ [e.2]) v ++ _ = _
    by_cases hv : e.1 = v
    · subst hv
      rw [Function.update_self, List.filter_cons_of_pos (by simp), List.map_cons,
        List.append_assoc]
      rfl
    · rw [Function.update_of_ne fun heq => hv heq.symm, List.filter_cons_of_neg (by simpa using hv)]

/-- The built graph has the successors of its edges. -/
theorem build_adj (edges : List (Fin V × Fin V)) : (Graph.build edges).adj = successors edges := by
  funext v
  rw [Graph.build, foldl_addEdge_adj]
  rfl

/-! ### The search -/

/-- The marks and the queue of the program, and the search that they stand for. -/
structure Follows (visited : Fin V → Bool) (queue : List (Fin V)) (st : Search (Fin V)) : Prop where
  mark : ∀ v, visited v = true ↔ st.level v ≠ none
  queue : st.queue = queue

/-- Trying a successor follows the search's discovery. -/
theorem Follows.successor {s : State V} {st : Search (Fin V)} (h : Follows s.visited s.queue st)
    (i : Fin V) (k : Nat) :
    Follows (successor s i).visited (successor s i).queue (discover k st i) := by
  -- The program and the search pass over the same successors.
  cases hlevel : st.level i with
  | some n =>
    have hmark : s.visited i = true := (h.mark i).mpr (by rw [hlevel]; exact Option.some_ne_none n)
    rw [discover_some hlevel, DynamicProgramming.BFS.successor, hmark]
    exact h
  | none =>
    have hmark : s.visited i = false := by
      rw [← Bool.not_eq_true, h.mark i, not_not]
      exact hlevel
    rw [discover_none hlevel, DynamicProgramming.BFS.successor, hmark]
    refine ⟨fun v => ?_, congrArg (· ++ [i]) h.queue⟩
    show Function.update s.visited i true v = true ↔ Function.update st.level i (some k) v ≠ none
    by_cases hv : v = i
    · simp [hv]
    · rw [Function.update_of_ne hv, Function.update_of_ne hv]
      exact h.mark v

/-- The successors are discovered, and nothing is printed for them. -/
theorem Follows.successors {s : State V} {st : Search (Fin V)} (h : Follows s.visited s.queue st)
    (k : Nat) (l : List (Fin V)) :
    Follows (l.foldl DynamicProgramming.BFS.successor s).visited
        (l.foldl DynamicProgramming.BFS.successor s).queue (l.foldl (discover k) st) ∧
      (l.foldl DynamicProgramming.BFS.successor s).printed = s.printed := by
  induction l generalizing s st with
  | nil => exact ⟨h, rfl⟩
  | cons i l ih =>
    obtain ⟨hfollows, hprinted⟩ := ih (h.successor i k)
    refine ⟨hfollows, hprinted.trans ?_⟩
    rw [DynamicProgramming.BFS.successor]
    split <;> rfl

/-- The state of the program and a search that has made the same visits. -/
def Traverses (g : Graph V) (start : Fin V) (s : State V) : Prop :=
  ∃ st, Follows s.visited s.queue st ∧ Visited g.adj start st s.printed

/-- The start of the program follows the start of the search. -/
theorem traverses_start (g : Graph V) (start : Fin V) :
    Traverses g start ⟨Function.update (fun _ => false) start true, [start], []⟩ := by
  refine ⟨_, ⟨fun v => ?_, rfl⟩, visited_start g.adj start⟩
  show Function.update (fun _ => false) start true v = true ↔
    Function.update (fun _ => none) start (some 0) v ≠ none
  by_cases hv : v = start
  · simp [hv]
  · simp [hv]

/-- A round takes the first vertex of the queue, prints it and follows the search. -/
theorem Traverses.round {g : Graph V} {start v : Fin V} {visited : Fin V → Bool}
    {rest printed : List (Fin V)} (h : Traverses g start ⟨visited, v :: rest, printed⟩) :
    Traverses g start (round g v rest ⟨visited, v :: rest, printed⟩) ∧
      (round g v rest ⟨visited, v :: rest, printed⟩).printed = printed ++ [v] := by
  obtain ⟨st, hfollows, hvisited⟩ := h
  have hqueue : st.queue = v :: rest := hfollows.queue
  obtain ⟨k, hk⟩ := hvisited.layered.queued v (by rw [hqueue]; exact List.mem_cons_self)
  -- The vertex leaves the queue and is printed before its successors are looked at.
  have hstart : Follows visited rest ⟨st.level, rest⟩ := ⟨hfollows.mark, rfl⟩
  obtain ⟨hnext, hprinted⟩ :=
    hstart.successors (s := ⟨visited, rest, printed ++ [v]⟩) (k + 1) (g.adj v)
  refine ⟨⟨_, hnext, ?_⟩, hprinted⟩
  rw [DynamicProgramming.BFS.round, hprinted]
  exact hvisited.visit hqueue hk

/-- No more rounds than vertices are left to be printed. -/
theorem rounds_end {g : Graph V} {start : Fin V} (fuel : Nat) (s : State V)
    (h : Traverses g start s) (hfuel : V ≤ s.printed.length + fuel) :
    ∃ out st, rounds g fuel s = some out ∧ st.queue = [] ∧ Visited g.adj start st out := by
  induction fuel generalizing s with
  | zero =>
    obtain ⟨visited, queue, printed⟩ := s
    obtain ⟨st, hfollows, hvisited⟩ := h
    cases queue with
    | nil => exact ⟨printed, st, rfl, hfollows.queue, hvisited⟩
    | cons v rest =>
      -- There would be one vertex more than there are.
      have hle := hvisited.lists.1.length_le_card
      rw [Fintype.card_fin, hfollows.queue, List.length_append, List.length_cons] at hle
      have hfuel' : V ≤ printed.length := hfuel
      omega
  | succ fuel ih =>
    obtain ⟨visited, queue, printed⟩ := s
    cases queue with
    | nil =>
      obtain ⟨st, hfollows, hvisited⟩ := h
      exact ⟨printed, st, rfl, hfollows.queue, hvisited⟩
    | cons v rest =>
      obtain ⟨hnext, hprinted⟩ := h.round
      refine ih _ hnext ?_
      rw [hprinted, List.length_append, List.length_singleton]
      have hfuel' : V ≤ printed.length + (fuel + 1) := hfuel
      omega

/-! ### The theorem -/

/-- The traversal ends. It prints the vertices that a walk leads to, each once, and no vertex before
one that is nearer to the start. -/
theorem bfs_order (edges : List (Fin V × Fin V)) (start : Fin V) :
    ∃ out, (Graph.build edges).BFS V start = some out ∧ out.Nodup ∧
      (∀ v, v ∈ out ↔ ∃ n, Reaches (successors edges) start n v) ∧
      out.Pairwise fun v w => ∀ m n, IsLeast {k | Reaches (successors edges) start k v} m →
        IsLeast {k | Reaches (successors edges) start k w} n → m ≤ n := by
  obtain ⟨out, st, hrun, hqueue, hvisited⟩ :=
    rounds_end V _ (traverses_start (Graph.build edges) start) (Nat.le_add_left V _)
  rw [build_adj] at hvisited
  obtain ⟨hlayered, hlists, hordered⟩ := hvisited
  -- With an empty queue, the printed vertices are all that were discovered.
  rw [hqueue, List.append_nil] at hlists hordered
  refine ⟨out, hrun, hlists.1, fun v => ?_, hordered.imp fun {v w} hle m n hm hn => ?_⟩
  · rw [hlists.2 v, Ne, hlayered.level_none_iff hqueue v, not_forall_not]
  · exact hle m n ((hlayered.level_iff hqueue v m).mpr hm) ((hlayered.level_iff hqueue w n).mpr hn)

end LearnGit.Proofs.DynamicProgramming.BFS
