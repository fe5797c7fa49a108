import Mathlib.Data.List.Basic
import Mathlib.Data.List.Nodup
import Mathlib.Logic.Function.Basic
import Mathlib.Order.Bounds.Basic
import Mathlib.Tactic.Common

/-!
# `LearnGit.Lib.BreadthFirst`: breadth-first search

A graph gives every vertex the list of its successors. A search has levels for the vertices that it
has discovered, and a queue of those that are still to be visited. A visit of a vertex discovers its
successors that have no level yet, and they are queued.

`Layered` is the invariant of a search that takes its vertices from the front of the queue: the
levels in the queue do not decrease, and no level is beyond the next layer. When the queue is empty,
the levels are the distances from the start (`Layered.level_iff`).

`Visited` adds the vertices that were visited, in their order. They and the queue are what has been
discovered, each vertex once and layer by layer (`Visited.visit`).
-/

set_option autoImplicit false

namespace LearnGit.Lib

variable {V : Type}

/-- There is a walk of `n` edges from `s`. -/
inductive Reaches (next : V → List V) (s : V) : Nat → V → Prop
  | start : Reaches next s 0 s
  | step {n : Nat} {v w : V} (walk : Reaches next s n v) (edge : w ∈ next v) :
    Reaches next s (n + 1) w

/-- The levels of the discovered vertices, and the vertices to visit. -/
structure Search (V : Type) where
  level : V → Option Nat
  queue : List V

/-! ### Layers -/

/-- A search from `s` that visits one layer after the other. -/
structure Layered (next : V → List V) (s : V) (st : Search V) : Prop where
  start : st.level s = some 0
  reached : ∀ v n, st.level v = some n → Reaches next s n v
  queued : ∀ v ∈ st.queue, ∃ n, st.level v = some n
  ordered : st.queue.Pairwise fun v w => ∀ m n, st.level v = some m → st.level w = some n → m ≤ n
  span : ∀ v ∈ st.queue.head?, ∀ k, st.level v = some k →
    ∀ w n, st.level w = some n → n ≤ k + 1
  visited : ∀ v k, st.level v = some k → v ∉ st.queue →
    ∀ w ∈ next v, ∃ n, st.level w = some n ∧ n ≤ k + 1

section
variable {next : V → List V} {s u v : V} {rest : List V} {st : Search V} {k : Nat}

/-- The layer behind that of the first vertex is the last one. -/
theorem Layered.level_le_succ (h : Layered next s st) (hqueue : st.queue = u :: rest)
    (hu : st.level u = some k) {n : Nat} (hv : st.level v = some n) : n ≤ k + 1 :=
  h.span u (by rw [hqueue]; rfl) k hu v n hv

/-- A vertex behind the first one of the queue has a level. -/
theorem Layered.level_rest (h : Layered next s st) (hqueue : st.queue = u :: rest)
    (hv : v ∈ rest) : ∃ n, st.level v = some n :=
  h.queued v (by rw [hqueue]; exact List.mem_cons_of_mem u hv)

/-- Behind the last visit, no walk is shorter than the level. -/
theorem Layered.level_le (h : Layered next s st) (hqueue : st.queue = []) {n : Nat}
    (hwalk : Reaches next s n v) : ∃ m, st.level v = some m ∧ m ≤ n := by
  induction hwalk with
  | start => exact ⟨0, h.start, Nat.le_refl 0⟩
  | step _ edge ih =>
    obtain ⟨m, hm, hle⟩ := ih
    obtain ⟨m', hm', hle'⟩ := h.visited _ m hm (by rw [hqueue]; exact List.not_mem_nil) _ edge
    exact ⟨m', hm', by omega⟩

/-- The levels are the distances. -/
theorem Layered.level_iff (h : Layered next s st) (hqueue : st.queue = []) (v : V) (n : Nat) :
    st.level v = some n ↔ IsLeast {n | Reaches next s n v} n := by
  have hleast : ∀ m, st.level v = some m → IsLeast {n | Reaches next s n v} m := by
    intro m hm
    refine ⟨h.reached v m hm, fun n hn => ?_⟩
    obtain ⟨m', hm', hle⟩ := h.level_le hqueue hn
    rw [hm] at hm'
    rwa [Option.some.inj hm']
  refine ⟨hleast n, fun hn => ?_⟩
  obtain ⟨m, hm, -⟩ := h.level_le hqueue hn.1
  rw [hm, (hleast m hm).unique hn]

/-- At the end only the vertices without a walk have no level. -/
theorem Layered.level_none_iff (h : Layered next s st) (hqueue : st.queue = []) (v : V) :
    st.level v = none ↔ ∀ n, ¬Reaches next s n v := by
  constructor
  · intro hv n hn
    obtain ⟨m, hm, -⟩ := h.level_le hqueue hn
    rw [hv] at hm
    cases hm
  · intro hv
    cases hlevel : st.level v with
    | none => rfl
    | some n => exact absurd (h.reached v n hlevel) (hv n)

end

/-! ### Visits -/

variable [DecidableEq V]

/-- A successor that has no level gets this one. -/
def discover (k : Nat) (st : Search V) (v : V) : Search V :=
  match st.level v with
  | none => ⟨Function.update st.level v (some k), st.queue ++ [v]⟩
  | some _ => st

/-- A visit of a vertex with the level `k`. -/
def visit (next : V → List V) (u : V) (k : Nat) (st : Search V) : Search V :=
  (next u).foldl (discover (k + 1)) st

section
variable {k : Nat} {st : Search V} {v : V}

/-- A vertex without a level gets one, and is queued. -/
theorem discover_none (h : st.level v = none) :
    discover k st v = ⟨Function.update st.level v (some k), st.queue ++ [v]⟩ := by
  rw [discover, h]

/-- A vertex with a level stays as it is. -/
theorem discover_some {n : Nat} (h : st.level v = some n) : discover k st v = st := by
  rw [discover, h]

/-- The search with the new vertices of a list. -/
structure Discovers (k : Nat) (l new : List V) (st st' : Search V) : Prop where
  queue : st'.queue = st.queue ++ new
  mem_new : ∀ v, v ∈ new ↔ v ∈ l ∧ st.level v = none
  old : ∀ v n, st.level v = some n → st'.level v = some n
  level : ∀ v, st.level v = none → st'.level v = if v ∈ l then some k else none

/-- The successors are discovered one after the other. -/
theorem discovers_foldl (k : Nat) (l : List V) (st : Search V) :
    ∃ new, Discovers k l new st (l.foldl (discover k) st) := by
  induction l generalizing st with
  | nil => exact ⟨[], (List.append_nil _).symm, by simp, fun _ _ h => h, fun _ h => h⟩
  | cons w l ih =>
    rw [List.foldl_cons]
    cases hw : st.level w with
    | some n =>
      rw [discover_some hw]
      obtain ⟨new, hqueue, hmem, hold, hnew⟩ := ih st
      -- `w` is not one of the new vertices.
      have hother : ∀ v, st.level v = none → (v ∈ w :: l ↔ v ∈ l) := by
        intro v hv
        rw [List.mem_cons]
        refine or_iff_right ?_
        rintro rfl
        rw [hw] at hv
        cases hv
      refine ⟨new, hqueue, fun v => ?_, hold, fun v hv => ?_⟩
      · rw [hmem]
        exact and_congr_left fun hv => (hother v hv).symm
      · rw [hnew v hv, if_congr (hother v hv) rfl rfl]
    | none =>
      rw [discover_none hw]
      obtain ⟨new, hqueue, hmem, hold, hnew⟩ :=
        ih ⟨Function.update st.level w (some k), st.queue ++ [w]⟩
      refine ⟨w :: new, by rw [hqueue, List.append_assoc]; rfl, fun v => ?_, fun v n hv => ?_,
        fun v hv => ?_⟩
      · by_cases hvw : v = w
        · subst hvw
          simp [hw]
        · rw [List.mem_cons, hmem, List.mem_cons]
          dsimp only
          rw [Function.update_of_ne hvw]
          simp [hvw]
      · refine hold v n ?_
        show Function.update st.level w (some k) v = some n
        rw [Function.update_of_ne, hv]
        rintro rfl
        rw [hw] at hv
        cases hv
      · by_cases hvw : v = w
        · subst hvw
          rw [hold v k (Function.update_self _ _ _), if_pos List.mem_cons_self]
        · rw [hnew v (by show Function.update st.level w (some k) v = none
                         rw [Function.update_of_ne hvw, hv])]
          simp [hvw]

end

section
variable {next : V → List V} {s u : V} {rest : List V} {st : Search V} {k : Nat}

/-- The search before its first visit. -/
theorem layered_start (next : V → List V) (s : V) :
    Layered next s ⟨Function.update (fun _ => none) s (some 0), [s]⟩ := by
  have hlevel : ∀ v n, Function.update (fun _ => none) s (some 0) v = some n → v = s ∧ n = 0 := by
    intro v n h
    by_cases hv : v = s
    · rw [hv, Function.update_self] at h
      exact ⟨hv, (Option.some.inj h).symm⟩
    · rw [Function.update_of_ne hv] at h
      cases h
  have hstart : Function.update (fun _ => none) s (some 0) s = some 0 := Function.update_self s _ _
  refine ⟨hstart, fun v n h => ?_, fun v hv => ?_, List.pairwise_singleton _ _,
    fun v _ k _ w n hw => ?_, fun v k hv hnot => ?_⟩
  · obtain ⟨rfl, rfl⟩ := hlevel v n h
    exact Reaches.start
  · rw [List.mem_singleton] at hv
    exact ⟨0, by rw [hv]; exact hstart⟩
  · have := (hlevel w n hw).2
    omega
  · exact absurd (List.mem_singleton.mpr (hlevel v k hv).1) hnot

/-- A visit of a vertex that has been visited before finds nothing. -/
theorem Layered.visit_again (h : Layered next s st) (hu : st.level u = some k)
    (hnot : u ∉ st.queue) (l : List V) (hl : ∀ w ∈ l, w ∈ next u) (j : Nat) :
    l.foldl (discover j) st = st := by
  induction l with
  | nil => rfl
  | cons w l ih =>
    obtain ⟨n, hn, -⟩ := h.visited u k hu hnot w (hl w List.mem_cons_self)
    rw [List.foldl_cons, discover_some hn]
    exact ih fun w hw => hl w (List.mem_cons_of_mem _ hw)

/-- A level is an old one, or that of a new vertex. -/
theorem Discovers.cases {l new : List V} {st' : Search V} (h : Discovers k l new st st') {v : V}
    {n : Nat} (hv : st'.level v = some n) :
    st.level v = some n ∨ st.level v = none ∧ v ∈ l ∧ n = k := by
  cases hv' : st.level v with
  | some m => exact .inl ((h.old v m hv').symm.trans hv)
  | none =>
    rw [h.level v hv'] at hv
    split at hv
    · rename_i hmem
      exact .inr ⟨rfl, hmem, (Option.some.inj hv).symm⟩
    · cases hv

/-- A new vertex has the level it is given. -/
theorem Discovers.level_new {l new : List V} {st' : Search V} (h : Discovers k l new st st') {v : V}
    (hv : v ∈ new) : st'.level v = some k := by
  obtain ⟨hmem, hnone⟩ := (h.mem_new v).mp hv
  rw [h.level v hnone, if_pos hmem]

section
variable {new : List V} {st' : Search V} (h : Layered next s st) (hqueue : st.queue = u :: rest)
  (hu : st.level u = some k) (hd : Discovers (k + 1) (next u) new ⟨st.level, rest⟩ st')
include h hqueue hu hd

/-- No level is above the next layer. -/
theorem Layered.level_le_of_discovers {v : V} {n : Nat} (hv : st'.level v = some n) :
    n ≤ k + 1 := by
  rcases hd.cases hv with hv | ⟨-, -, rfl⟩
  · exact h.level_le_succ hqueue hu hv
  · exact Nat.le_refl _

/-- The queue stays ordered, because the new vertices are in the last layer. -/
theorem Layered.ordered_of_discovers : st'.queue.Pairwise fun v w =>
    ∀ m n, st'.level v = some m → st'.level w = some n → m ≤ n := by
  have hordered := h.ordered
  rw [hqueue, List.pairwise_cons] at hordered
  rw [hd.queue, List.pairwise_append]
  refine ⟨?_, ?_, fun v _ w hw m n hm hn => ?_⟩
  · refine hordered.2.imp_of_mem fun {v w} hv hw hle m n hm hn => ?_
    obtain ⟨m', hm'⟩ := h.level_rest hqueue hv
    obtain ⟨n', hn'⟩ := h.level_rest hqueue hw
    rw [hd.old v m' hm'] at hm
    rw [hd.old w n' hn'] at hn
    exact hle m n (hm'.trans hm) (hn'.trans hn)
  · refine List.pairwise_of_forall_mem_list fun v hv w hw m n hm hn => ?_
    rw [hd.level_new hv] at hm
    rw [hd.level_new hw] at hn
    exact (Option.some.inj (hm.symm.trans hn)).le
  · -- The new vertices are in the last layer.
    rw [hd.level_new hw] at hn
    rw [← Option.some.inj hn]
    exact h.level_le_of_discovers hqueue hu hd hm

/-- The next vertex of the queue is not in a layer before that of `u`. -/
theorem Layered.le_level_next {v : V} {m : Nat} (hv : v ∈ st'.queue)
    (hm : st'.level v = some m) : k ≤ m := by
  have hordered := h.ordered
  rw [hqueue, List.pairwise_cons] at hordered
  rw [hd.queue, List.mem_append] at hv
  rcases hv with hv | hv
  · obtain ⟨m', hm'⟩ := h.level_rest hqueue hv
    obtain rfl : m' = m := Option.some.inj ((hd.old v m' hm').symm.trans hm)
    exact hordered.1 v hv k m' hu hm'
  · rw [hd.level_new hv] at hm
    have := Option.some.inj hm
    omega

/-- The successors of a visited vertex have a level, and it is no more than one greater. -/
theorem Layered.visited_of_discovers {v w : V} {m : Nat} (hv : st'.level v = some m)
    (hnot : v ∉ st'.queue) (hw : w ∈ next v) : ∃ n, st'.level w = some n ∧ n ≤ m + 1 := by
  rw [hd.queue, List.mem_append, not_or] at hnot
  rcases hd.cases hv with hv' | ⟨hnone, hmem, -⟩
  · by_cases hvu : v = u
    · -- The successors of `u` have been discovered by its visit.
      subst hvu
      obtain rfl : k = m := Option.some.inj (hu.symm.trans hv')
      cases hw' : st.level w with
      | some n => exact ⟨n, hd.old w n hw', h.level_le_succ hqueue hu hw'⟩
      | none => exact ⟨k + 1, by rw [hd.level w hw', if_pos hw], Nat.le_refl _⟩
    · have hout : v ∉ st.queue := by
        rw [hqueue, List.mem_cons, not_or]
        exact ⟨hvu, hnot.1⟩
      obtain ⟨n, hn, hle⟩ := h.visited v m hv' hout w hw
      exact ⟨n, hd.old w n hn, hle⟩
  · exact absurd ((hd.mem_new v).mpr ⟨hmem, hnone⟩) hnot.2

end

/-- The first vertex of the queue is visited. -/
theorem Layered.visit (h : Layered next s st) (hqueue : st.queue = u :: rest)
    (hu : st.level u = some k) : Layered next s (visit next u k ⟨st.level, rest⟩) := by
  obtain ⟨new, hd⟩ := discovers_foldl (k + 1) (next u) ⟨st.level, rest⟩
  rw [← LearnGit.Lib.visit] at hd
  refine ⟨hd.old s 0 h.start, fun v n hv => ?_, fun v hv => ?_,
    h.ordered_of_discovers hqueue hu hd, fun v hv m hm w n hw => ?_,
    fun v m hv hnot w hw => h.visited_of_discovers hqueue hu hd hv hnot hw⟩
  · rcases hd.cases hv with hv | ⟨-, hmem, rfl⟩
    · exact h.reached v n hv
    · exact (h.reached u k hu).step hmem
  · rw [hd.queue, List.mem_append] at hv
    rcases hv with hv | hv
    · obtain ⟨n, hn⟩ := h.level_rest hqueue hv
      exact ⟨n, hd.old v n hn⟩
    · exact ⟨k + 1, hd.level_new hv⟩
  · have hnext := h.le_level_next hqueue hu hd (List.mem_of_mem_head? hv) hm
    have hlast := h.level_le_of_discovers hqueue hu hd hw
    omega

/-! ### The order of the visits -/

/-- The list has the discovered vertices, each once. -/
def Lists (st : Search V) (l : List V) : Prop := l.Nodup ∧ ∀ v, v ∈ l ↔ st.level v ≠ none

/-- A discovered vertex is listed once. -/
theorem lists_discover {out : List V} (h : Lists st (out ++ st.queue)) (v : V) :
    Lists (discover k st v) (out ++ (discover k st v).queue) := by
  cases hv : st.level v with
  | some n =>
    rw [discover_some hv]
    exact h
  | none =>
    have hnot : v ∉ out ++ st.queue := fun hmem => (h.2 v).mp hmem hv
    rw [discover_none hv]
    refine ⟨?_, fun w => ?_⟩
    · rw [← List.append_assoc]
      exact List.Nodup.append h.1 (List.nodup_singleton v) (List.disjoint_singleton.mpr hnot)
    · rw [← List.append_assoc, List.mem_append, h.2 w, List.mem_singleton]
      by_cases hw : w = v
      · simp [hw]
      · simp [hw]

/-- The discovered vertices are listed once each. -/
theorem lists_foldl {out : List V} (l : List V) (h : Lists st (out ++ st.queue)) :
    Lists (l.foldl (discover k) st) (out ++ (l.foldl (discover k) st).queue) := by
  induction l generalizing st with
  | nil => exact h
  | cons v l ih => exact ih (lists_discover h v)

/-- The level of the first one is not greater. -/
def NotDeeper (st : Search V) (v w : V) : Prop :=
  ∀ m n, st.level v = some m → st.level w = some n → m ≤ n

/-- A search that has visited the vertices of `out` in this order. -/
structure Visited (next : V → List V) (s : V) (st : Search V) (out : List V) : Prop where
  layered : Layered next s st
  lists : Lists st (out ++ st.queue)
  ordered : (out ++ st.queue).Pairwise (NotDeeper st)

/-- Before the first visit. -/
theorem visited_start (next : V → List V) (s : V) :
    Visited next s ⟨Function.update (fun _ => none) s (some 0), [s]⟩ [] := by
  refine ⟨layered_start next s, ⟨List.nodup_singleton s, fun v => ?_⟩, List.pairwise_singleton _ _⟩
  show v ∈ [s] ↔ Function.update (fun _ => none) s (some 0) v ≠ none
  rw [List.mem_singleton]
  by_cases hv : v = s
  · simp [hv]
  · simp [hv]

/-- The first vertex of the queue is the next one of the order. -/
theorem Visited.visit {out : List V} (h : Visited next s st out) (hqueue : st.queue = u :: rest)
    (hu : st.level u = some k) :
    Visited next s (visit next u k ⟨st.level, rest⟩) (out ++ [u]) := by
  have hsplit : out ++ st.queue = out ++ [u] ++ rest := by rw [hqueue, List.append_assoc]; rfl
  have hlists : Lists ⟨st.level, rest⟩ (out ++ [u] ++ rest) := hsplit ▸ h.lists
  refine ⟨h.layered.visit hqueue hu, lists_foldl (next u) hlists, ?_⟩
  obtain ⟨new, hd⟩ := discovers_foldl (k + 1) (next u) ⟨st.level, rest⟩
  rw [← LearnGit.Lib.visit] at hd
  have hold : ∀ v ∈ out ++ [u] ++ rest, ∃ n, st.level v = some n := fun v hv =>
    Option.ne_none_iff_exists'.mp ((hlists.2 v).mp hv)
  have hordered : (out ++ [u] ++ rest).Pairwise (NotDeeper st) := hsplit ▸ h.ordered
  rw [hd.queue, ← List.append_assoc, List.pairwise_append]
  refine ⟨hordered.imp_of_mem fun {v w} hv hw hle m n hm hn => ?_,
    List.pairwise_of_forall_mem_list fun v hv w hw m n hm hn => ?_, fun v _ w hw m n hm hn => ?_⟩
  · -- The levels of these vertices are what they were.
    obtain ⟨m', hm'⟩ := hold v hv
    obtain ⟨n', hn'⟩ := hold w hw
    rw [hd.old v m' hm'] at hm
    rw [hd.old w n' hn'] at hn
    exact hle m n (hm'.trans hm) (hn'.trans hn)
  · rw [hd.level_new hv] at hm
    rw [hd.level_new hw] at hn
    exact (Option.some.inj (hm.symm.trans hn)).le
  · -- No vertex is beyond the layer of the new ones.
    rw [hd.level_new hw] at hn
    rw [← Option.some.inj hn]
    exact h.layered.level_le_of_discovers hqueue hu hd hm

end

end LearnGit.Lib
