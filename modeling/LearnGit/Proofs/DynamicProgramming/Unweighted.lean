import LearnGit.DynamicProgramming.Unweighted
import LearnGit.Lib.BreadthFirst
import Mathlib.Data.Fintype.Card

/-!
# `LearnGit.Proofs.DynamicProgramming.Unweighted`: the table holds the distances

`unweighted_distances`: the loop ends, and every vertex has its distance from the start, or -1 where
it is not reached.

A vertex is marked when it is taken from the queue, and so it may be queued several times. What the
search still has to visit are the vertices of the queue that are not marked, each at its first place
(`pending`). With that queue, a round for an unmarked vertex is a visit of a breadth-first search,
and a round for a marked one queues again what is pending already (`Follows`). In every round there
are fewer unmarked vertices, or fewer marked ones at the front of the queue
(`rounds_end`).
-/

set_option autoImplicit false

namespace LearnGit.Proofs.DynamicProgramming.Unweighted

open LearnGit.Lib
open LearnGit.DynamicProgramming.Unweighted

variable {NumVertex : Nat}

/-! ### What is pending -/

/-- The vertex has not been taken from the queue. -/
def Fresh (T : Fin NumVertex → Table) (v : Fin NumVertex) : Prop := (T v).Known = 0

instance (T : Fin NumVertex → Table) : DecidablePred (Fresh T) := fun v =>
  inferInstanceAs (Decidable ((T v).Known = 0))

/-- The fresh vertices of the queue, each at its first place. -/
def pending (T : Fin NumVertex → Table) (que : List (Fin NumVertex)) : List (Fin NumVertex) :=
  (que.filter (Fresh T ·)).eraseDups

section
variable {T : Fin NumVertex → Table} {que : List (Fin NumVertex)} {v : Fin NumVertex}

/-- The pending vertices are the fresh ones of the queue. -/
theorem mem_pending : v ∈ pending T que ↔ v ∈ que ∧ Fresh T v := by
  rw [pending, List.mem_eraseDups, List.mem_filter, decide_eq_true_eq]

/-- What is pending depends on which vertices are fresh. -/
theorem pending_congr {T' : Fin NumVertex → Table} (h : ∀ v, Fresh T' v ↔ Fresh T v) :
    pending T' que = pending T que := by
  simp only [pending, h]

/-- What has been marked is not pending. -/
theorem pending_cons_known (h : ¬Fresh T v) : pending T (v :: que) = pending T que := by
  rw [pending, List.filter_cons_of_neg (by simpa using h), pending]

/-- Marking a vertex leaves the other fresh vertices fresh. -/
theorem fresh_setKnown {w : Fin NumVertex} : Fresh (setKnown T v) w ↔ Fresh T w ∧ w ≠ v := by
  rw [Fresh, setKnown]
  by_cases hw : w = v
  · subst hw
    simp
  · rw [Function.update_of_ne hw]
    exact (and_iff_left hw).symm

/-- To mark a vertex again changes nothing. -/
theorem fresh_setKnown_of_known (h : ¬Fresh T v) (w : Fin NumVertex) :
    Fresh (setKnown T v) w ↔ Fresh T w := by
  rw [fresh_setKnown]
  refine and_iff_left_of_imp fun hw => ?_
  rintro rfl
  exact h hw

/-- Marking a vertex leaves every distance. -/
theorem setKnown_dist (T : Fin NumVertex → Table) (v w : Fin NumVertex) :
    (setKnown T v w).Dist = (T w).Dist := by
  rw [setKnown, Function.update_apply]
  split
  · rename_i hw
    rw [hw]
  · rfl

/-- A new distance leaves every mark. -/
theorem fresh_setDist (T : Fin NumVertex → Table) (v w : Fin NumVertex) (d : Int) :
    Fresh (Function.update T v ⟨(T v).Known, d⟩) w ↔ Fresh T w := by
  rw [Fresh, Function.update_apply]
  split
  · rename_i hw
    rw [hw, Fresh]
  · rfl

/-- When the front is marked, its other places in the queue are not pending any more. -/
theorem pending_cons_fresh (h : Fresh T v) :
    pending T (v :: que) = v :: pending (setKnown T v) que := by
  rw [pending, List.filter_cons_of_pos (by simpa using h), List.eraseDups_cons, List.filter_filter,
    pending]
  -- What is left of the queue loses the front, as the marks say too.
  congr 2
  refine List.filter_congr fun w _ => ?_
  rw [Bool.eq_iff_iff]
  simp [fresh_setKnown, and_comm]

/-- A fresh vertex that joins the queue is pending behind the others, if it was not in the queue. -/
theorem pending_append (hv : Fresh T v) :
    pending T (que ++ [v]) = pending T que ++ if v ∈ que then [] else [v] := by
  have hlast : List.filter (Fresh T ·) [v] = [v] := by simpa using hv
  have hnew : [v].removeAll (que.filter (Fresh T ·)) = if v ∈ que then [] else [v] := by
    by_cases h : v ∈ que
    · rw [if_pos h]
      simp [List.removeAll, h, hv]
    · rw [if_neg h]
      simp [List.removeAll, h]
  rw [pending, List.filter_append, List.eraseDups_append, hlast, hnew, pending]
  congr 1
  split <;> rfl

end

/-! ### The search -/

/-- The level of a vertex as its distance in the table. -/
def distance : Option Nat → Int
  | none => -1
  | some n => n

/-- The distance -1 stands for a vertex that was not found. -/
theorem distance_eq_neg_one {o : Option Nat} : distance o = -1 ↔ o = none := by
  cases o with
  | none => exact ⟨fun _ => rfl, fun _ => rfl⟩
  | some n =>
    refine ⟨fun h => ?_, fun h => nomatch h⟩
    rw [distance] at h
    omega

/-- The table and the queue of the program, and the search that they stand for. -/
structure Follows (s : State NumVertex) (st : Search (Fin NumVertex)) : Prop where
  dist : ∀ v, (s.T v).Dist = distance (st.level v)
  queue : st.queue = pending s.T s.que
  marked : ∀ v, ¬Fresh s.T v → st.level v ≠ none
  queued : ∀ v, Fresh s.T v → (v ∈ s.que ↔ st.level v ≠ none)

section
variable {T : Fin NumVertex → Table} {que : List (Fin NumVertex)} {front p : Fin NumVertex}

/-- A successor that is marked changes nothing. -/
theorem successor_known (h : ¬Fresh T p) : successor front ⟨T, que⟩ p = ⟨T, que⟩ := if_neg h

/-- A fresh successor that has a distance joins the queue once more. -/
theorem successor_queued (h : Fresh T p) (hdist : (T p).Dist ≠ -1) :
    successor front ⟨T, que⟩ p = ⟨T, que ++ [p]⟩ :=
  (if_pos h).trans (if_neg hdist)

/-- A fresh successor without a distance gets one and joins the queue. -/
theorem successor_new (h : Fresh T p) (hdist : (T p).Dist = -1) :
    successor front ⟨T, que⟩ p
      = ⟨Function.update T p ⟨(T p).Known, (T front).Dist + 1⟩, que ++ [p]⟩ :=
  (if_pos h).trans (if_pos hdist)

end

section
variable {T : Fin NumVertex → Table} {que : List (Fin NumVertex)} {st : Search (Fin NumVertex)}
  {front p : Fin NumVertex} {k : Nat}

/-- A vertex that is discovered. -/
theorem Follows.successor_new (h : Follows ⟨T, que⟩ st) (hfront : st.level front = some k)
    (hp : Fresh T p) (hlevel : st.level p = none) :
    Follows (successor front ⟨T, que⟩ p) (discover (k + 1) st p) := by
  have hdist : (T p).Dist = -1 := (h.dist p).trans (by rw [hlevel]; rfl)
  -- It was not in the queue before, so that it is pending now.
  have hout : p ∉ que := fun hmem => (h.queued p hp).mp hmem hlevel
  have hnext : (T front).Dist + 1 = ((k + 1 : Nat) : Int) := by
    rw [h.dist front, hfront, distance]
    push_cast
    rfl
  have hfresh := fresh_setDist T p (d := (T front).Dist + 1)
  rw [discover_none hlevel, Unweighted.successor_new hp hdist]
  refine ⟨fun v => ?_, ?_, fun v hv => ?_, fun v hv => ?_⟩
  · show (Function.update T p _ v).Dist = distance (Function.update st.level p _ v)
    by_cases hv : v = p
    · rw [hv, Function.update_self, Function.update_self]
      exact hnext
    · rw [Function.update_of_ne hv, Function.update_of_ne hv]
      exact h.dist v
  · show st.queue ++ [p] = pending _ (que ++ [p])
    rw [pending_congr hfresh, pending_append hp, if_neg hout, h.queue]
  · rw [hfresh] at hv
    have hvp : v ≠ p := fun heq => hv (heq ▸ hp)
    show Function.update st.level p _ v ≠ none
    rw [Function.update_of_ne hvp]
    exact h.marked v hv
  · rw [hfresh] at hv
    show v ∈ que ++ [p] ↔ Function.update st.level p _ v ≠ none
    rw [List.mem_append, List.mem_singleton]
    by_cases hvp : v = p
    · rw [hvp, Function.update_self]
      simp
    · rw [Function.update_of_ne hvp, or_iff_left hvp]
      exact h.queued v hv

/-- A vertex that is queued once more. -/
theorem Follows.successor_queued (h : Follows ⟨T, que⟩ st) (hp : Fresh T p) {n : Nat}
    (hlevel : st.level p = some n) : Follows (successor front ⟨T, que⟩ p) st := by
  have hdist : (T p).Dist ≠ -1 := by
    rw [h.dist p, hlevel, distance]
    omega
  -- It is in the queue already, and its second place is not pending.
  have hin : p ∈ que := (h.queued p hp).mpr (by rw [hlevel]; exact Option.some_ne_none n)
  rw [Unweighted.successor_queued hp hdist]
  refine ⟨h.dist, ?_, h.marked, fun v hv => ?_⟩
  · rw [pending_append hp, if_pos hin, List.append_nil]
    exact h.queue
  · rw [List.mem_append, List.mem_singleton]
    refine ⟨?_, fun hv' => .inl ((h.queued v hv).mpr hv')⟩
    rintro (hmem | rfl)
    · exact (h.queued v hv).mp hmem
    · rw [hlevel]
      exact Option.some_ne_none n

/-- One successor of a marked vertex. -/
theorem Follows.successor (h : Follows ⟨T, que⟩ st) (hfront : st.level front = some k) :
    Follows (successor front ⟨T, que⟩ p) (discover (k + 1) st p) := by
  by_cases hp : Fresh T p
  · cases hlevel : st.level p with
    | none => exact h.successor_new hfront hp hlevel
    | some n =>
      rw [discover_some hlevel]
      exact h.successor_queued hp hlevel
  · obtain ⟨n, hn⟩ := Option.ne_none_iff_exists'.mp (h.marked p hp)
    rw [successor_known hp, discover_some hn]
    exact h

end

/-- Trying all successors follows the search's discoveries. -/
theorem Follows.successors {s : State NumVertex} {st : Search (Fin NumVertex)}
    {front : Fin NumVertex} {k : Nat} (h : Follows s st) (hfront : st.level front = some k)
    (l : List (Fin NumVertex)) : Follows (l.foldl (DynamicProgramming.Unweighted.successor front) s)
      (l.foldl (discover (k + 1)) st) := by
  induction l generalizing s st with
  | nil => exact h
  | cons p l ih =>
    obtain ⟨new, hd⟩ := discovers_foldl (k + 1) [p] st
    exact ih (h.successor hfront) (hd.old front k hfront)

/-- A round: a visit, or none for a vertex that has been marked before. -/
theorem Follows.round {adj : Fin NumVertex → List (Fin NumVertex)} {begin front : Fin NumVertex}
    {rest : List (Fin NumVertex)} {T : Fin NumVertex → Table} {st : Search (Fin NumVertex)}
    (h : Follows ⟨T, front :: rest⟩ st) (hlayers : Layered adj begin st) :
    ∃ st', Follows (round adj front rest T) st' ∧ Layered adj begin st' := by
  by_cases hfront : Fresh T front
  · -- The first pending vertex is visited.
    have hqueue : st.queue = front :: pending (setKnown T front) rest := by
      rw [h.queue]
      exact pending_cons_fresh hfront
    obtain ⟨k, hk⟩ := hlayers.queued front (by rw [hqueue]; exact List.mem_cons_self)
    have hstart : Follows ⟨setKnown T front, rest⟩
        ⟨st.level, pending (setKnown T front) rest⟩ := by
      refine ⟨fun v => ?_, rfl, fun v hv => ?_, fun v hv => ?_⟩
      · exact (setKnown_dist T front v).trans (h.dist v)
      · rw [fresh_setKnown, not_and, not_not] at hv
        by_cases hv' : Fresh T v
        · rw [hv hv']
          show st.level front ≠ none
          rw [hk]
          exact Option.some_ne_none k
        · exact h.marked v hv'
      · obtain ⟨hv, hne⟩ := fresh_setKnown.mp hv
        rw [← h.queued v hv, List.mem_cons, or_iff_right hne]
    exact ⟨_, hstart.successors hk (adj front), hlayers.visit hqueue hk⟩
  · -- Its successors have been discovered already.
    obtain ⟨k, hk⟩ := Option.ne_none_iff_exists'.mp (h.marked front hfront)
    have hnot : front ∉ st.queue := by
      rw [h.queue]
      exact fun hmem => hfront (mem_pending.mp hmem).2
    have hfresh := fresh_setKnown_of_known hfront
    have hstart : Follows ⟨setKnown T front, rest⟩ st := by
      refine ⟨fun v => ?_, ?_, fun v hv => ?_, fun v hv => ?_⟩
      · exact (setKnown_dist T front v).trans (h.dist v)
      · rw [pending_congr hfresh, h.queue]
        exact pending_cons_known hfront
      · exact h.marked v (mt (hfresh v).mpr hv)
      · have hv' := (hfresh v).mp hv
        have hne : v ≠ front := fun heq => hfront (heq ▸ hv')
        rw [← h.queued v hv', List.mem_cons, or_iff_right hne]
    have hsame := hlayers.visit_again hk hnot (adj front) (fun w hw => hw) (k + 1)
    exact ⟨st, by rw [← hsame]; exact hstart.successors hk (adj front), hlayers⟩

/-! ### The end of the loop -/

/-- The vertices that have not been taken from the queue. -/
def freshCount (T : Fin NumVertex → Table) : Nat := (Finset.univ.filter (Fresh T ·)).card

/-- The marked vertices at the front of the queue. -/
def knownPrefix (T : Fin NumVertex → Table) (que : List (Fin NumVertex)) : Nat :=
  (que.takeWhile (¬Fresh T ·)).length

/-- The successors mark nothing, and queue what is not marked. -/
theorem successors_queue (front : Fin NumVertex) (l : List (Fin NumVertex))
    (s : State NumVertex) : (∀ v, Fresh (l.foldl (successor front) s).T v ↔ Fresh s.T v) ∧
      ∃ new, (l.foldl (successor front) s).que = s.que ++ new ∧ ∀ v ∈ new, Fresh s.T v := by
  induction l generalizing s with
  | nil => exact ⟨fun v => Iff.rfl, [], (List.append_nil _).symm, by simp⟩
  | cons p l ih =>
    obtain ⟨hfresh, new, hque, hnew⟩ := ih (successor front s p)
    rw [List.foldl_cons]
    by_cases hp : Fresh s.T p
    · have hstep : (∀ v, Fresh (successor front s p).T v ↔ Fresh s.T v) ∧
          (successor front s p).que = s.que ++ [p] := by
        by_cases hdist : (s.T p).Dist = -1
        · rw [successor_new hp hdist]
          exact ⟨fun v => fresh_setDist s.T p v _, rfl⟩
        · rw [successor_queued hp hdist]
          exact ⟨fun v => Iff.rfl, rfl⟩
      refine ⟨fun v => (hfresh v).trans (hstep.1 v), p :: new, ?_, fun v hv => ?_⟩
      · rw [hque, hstep.2, List.append_assoc]
        rfl
      · rcases List.mem_cons.mp hv with rfl | hv
        · exact hp
        · exact (hstep.1 v).mp (hnew v hv)
    · rw [successor_known hp] at hfresh hque hnew ⊢
      exact ⟨hfresh, new, hque, hnew⟩

/-- Fresh vertices behind the queue leave the marked ones at its front. -/
theorem knownPrefix_append {T : Fin NumVertex → Table} {que new : List (Fin NumVertex)}
    (h : ∀ v ∈ new, Fresh T v) : knownPrefix T (que ++ new) = knownPrefix T que := by
  induction que with
  | nil =>
    cases new with
    | nil => rfl
    | cons v new =>
      rw [List.nil_append, knownPrefix, knownPrefix,
        List.takeWhile_cons_of_neg (by simpa using h v List.mem_cons_self)]
      rfl
  | cons w que ih =>
    by_cases hw : Fresh T w
    · rw [List.cons_append, knownPrefix, knownPrefix,
        List.takeWhile_cons_of_neg (by simpa using hw),
        List.takeWhile_cons_of_neg (by simpa using hw)]
    · rw [List.cons_append, knownPrefix, knownPrefix,
        List.takeWhile_cons_of_pos (by simpa using hw),
        List.takeWhile_cons_of_pos (by simpa using hw), List.length_cons, List.length_cons]
      exact congrArg (· + 1) ih

/-- The number of fresh vertices depends on which ones are fresh. -/
theorem freshCount_congr {T T' : Fin NumVertex → Table} (h : ∀ v, Fresh T' v ↔ Fresh T v) :
    freshCount T' = freshCount T := by
  simp only [freshCount, h]

/-- The marked front of the queue depends on which vertices are fresh. -/
theorem knownPrefix_congr {T T' : Fin NumVertex → Table} (h : ∀ v, Fresh T' v ↔ Fresh T v)
    (que : List (Fin NumVertex)) : knownPrefix T' que = knownPrefix T que := by
  simp only [knownPrefix, h]

/-- There are fewer unmarked vertices, or fewer marked ones at the front of the queue. -/
theorem round_lt (adj : Fin NumVertex → List (Fin NumVertex)) (front : Fin NumVertex)
    (rest : List (Fin NumVertex)) (T : Fin NumVertex → Table) :
    freshCount (round adj front rest T).T < freshCount T ∨
      freshCount (round adj front rest T).T = freshCount T ∧
        knownPrefix (round adj front rest T).T (round adj front rest T).que
          < knownPrefix T (front :: rest) := by
  obtain ⟨hfresh, new, hque, hnew⟩ :=
    successors_queue front (adj front) ⟨setKnown T front, rest⟩
  rw [show (adj front).foldl (successor front) ⟨setKnown T front, rest⟩ = round adj front rest T
    from rfl] at hfresh hque
  rw [freshCount_congr hfresh, knownPrefix_congr hfresh, hque, knownPrefix_append hnew]
  by_cases hfront : Fresh T front
  · -- The front is marked.
    refine .inl (Finset.card_lt_card ?_)
    rw [Finset.ssubset_iff_of_subset]
    · exact ⟨front, by simpa using hfront, by simp [fresh_setKnown]⟩
    · intro v hv
      simp only [Finset.mem_filter, fresh_setKnown] at hv ⊢
      exact ⟨hv.1, hv.2.1⟩
  · -- No mark is new, and the front was the first one of the marked prefix.
    have hsame := fresh_setKnown_of_known hfront
    refine .inr ⟨freshCount_congr hsame, ?_⟩
    rw [knownPrefix_congr hsame, knownPrefix, knownPrefix,
      List.takeWhile_cons_of_pos (by simpa using hfront)]
    exact Nat.lt_succ_self _

/-- The loop ends, and keeps to the search. -/
theorem rounds_end {adj : Fin NumVertex → List (Fin NumVertex)} {begin : Fin NumVertex}
    (T : Fin NumVertex → Table) (que : List (Fin NumVertex)) {st : Search (Fin NumVertex)}
    (h : Follows ⟨T, que⟩ st) (hlayers : Layered adj begin st) :
    ∃ fuel T' st', rounds adj fuel ⟨T, que⟩ = some T' ∧ Follows ⟨T', []⟩ st' ∧
      Layered adj begin st' := by
  match que with
  | [] => exact ⟨0, T, st, rfl, h, hlayers⟩
  | front :: rest =>
    obtain ⟨st', hfollows, hlayers'⟩ := h.round hlayers
    have hlt := round_lt adj front rest T
    obtain ⟨fuel, T', st'', hrun, hend⟩ := rounds_end (round adj front rest T).T
      (round adj front rest T).que hfollows hlayers'
    exact ⟨fuel + 1, T', st'', hrun, hend⟩
termination_by (freshCount T, knownPrefix T que)
decreasing_by
  rw [Prod.lex_def]
  exact hlt

/-! ### The theorem -/

/-- The start of the program follows the start of the search. -/
theorem follows_start (begin : Fin NumVertex) : Follows ⟨initTable begin, [begin]⟩
    ⟨Function.update (fun _ => none) begin (some 0), [begin]⟩ := by
  have hfresh : ∀ v, Fresh (initTable begin) v := by
    intro v
    rw [Fresh, initTable, Function.update_apply]
    split <;> rfl
  have hlevel : ∀ v, (Function.update (fun _ => none) begin (some 0) v : Option Nat)
      = if v = begin then some 0 else none := fun v => Function.update_apply _ _ _ _
  refine ⟨fun v => ?_, ?_, fun v hv => absurd (hfresh v) hv, fun v _ => ?_⟩
  · dsimp only
    rw [hlevel, initTable, Function.update_apply]
    split <;> rfl
  · show [begin] = pending (initTable begin) ([] ++ [begin])
    rw [pending_append (hfresh begin), if_neg List.not_mem_nil]
    rfl
  · dsimp only
    rw [List.mem_singleton, hlevel]
    split
    · rename_i hv
      exact ⟨fun _ => Option.some_ne_none 0, fun _ => hv⟩
    · rename_i hv
      exact ⟨fun hv' => absurd hv' hv, fun hne => absurd rfl hne⟩

/-- The loop ends. `Dist` is the least number of edges from the start to a vertex, and -1 where no
walk leads to it. -/
theorem unweighted_distances (adj : Fin NumVertex → List (Fin NumVertex))
    (begin : Fin NumVertex) : ∃ fuel T, unweighted fuel (initTable begin) adj begin = some T ∧
      ∀ v, (∀ n : Nat, (T v).Dist = n ↔ IsLeast {n | Reaches adj begin n v} n) ∧
        ((T v).Dist = -1 ↔ ∀ n, ¬Reaches adj begin n v) := by
  obtain ⟨fuel, T, st, hrun, hfollows, hlayers⟩ :=
    rounds_end (initTable begin) [begin] (follows_start begin) (layered_start adj begin)
  refine ⟨fuel, T, hrun, fun v => ⟨fun n => ?_, ?_⟩⟩
  · rw [← hlayers.level_iff hfollows.queue v n, hfollows.dist v]
    cases st.level v with
    | none =>
      rw [distance]
      exact ⟨fun h => by omega, fun h => nomatch h⟩
    | some m => rw [distance, Int.natCast_inj, Option.some_inj]
  · rw [← hlayers.level_none_iff hfollows.queue v, ← distance_eq_neg_one, hfollows.dist v]

end LearnGit.Proofs.DynamicProgramming.Unweighted
