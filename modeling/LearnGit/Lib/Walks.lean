import Mathlib.Data.Set.Card.Arithmetic
import Mathlib.Tactic.Common

/-!
# `LearnGit.Lib.Walks`: counting walks by their moves

`edge v d w` says that the move `d` leads from `v` to `w`. `Walk edge s v l` says that the moves of
`l` lead from `s` to `v`, and `walks edge s n v` are the walks of `n` moves.

Where a move leads to no more than one vertex, the walks of `n + 1` moves are those of `n` moves to
the vertices before, and the number of the walks is the sum over these (`ncard_walks_succ`). Where
every move can be taken back, there are as many walks in one direction as in the other
(`ncard_walks_comm`).
-/

set_option autoImplicit false

namespace LearnGit.Lib

variable {V δ : Type} {edge : V → δ → V → Prop} {s u v w : V} {d : δ} {l : List δ} {n : Nat}

/-- The moves lead from `s` to a vertex, the last one first. -/
inductive Walk (edge : V → δ → V → Prop) (s : V) : V → List δ → Prop
  | nil : Walk edge s s []
  | snoc {v w : V} {d : δ} {l : List δ} (walk : Walk edge s v l) (move : edge v d w) :
    Walk edge s w (d :: l)

/-- The walks of `n` moves from `s` to `v`. -/
def walks (edge : V → δ → V → Prop) (s : V) (n : Nat) (v : V) : Set (List δ) :=
  {l | l.length = n ∧ Walk edge s v l}

/-- A first move. -/
theorem Walk.cons (hmove : edge s d u) (h : Walk edge u v l) : Walk edge s v (l ++ [d]) := by
  induction h with
  | nil => exact .snoc .nil hmove
  | snoc _ move ih => exact .snoc ih move

/-- A move leads to no more than one vertex. -/
def Functional (edge : V → δ → V → Prop) : Prop := ∀ v d w w', edge v d w → edge v d w' → w = w'

/-- The moves decide where a walk ends. -/
theorem Walk.end_eq (hedge : Functional edge) (h : Walk edge s v l) (h' : Walk edge s w l) :
    v = w := by
  induction h generalizing w with
  | nil =>
    cases h'
    rfl
  | snoc _ move ih =>
    cases h' with
    | snoc walk' move' =>
      obtain rfl := ih walk'
      exact hedge _ _ _ _ move move'

/-- Without a move the walk stays at the start. -/
theorem walks_zero_self : walks edge s 0 s = {[]} := by
  ext l
  constructor
  · rintro ⟨hlength, -⟩
    exact List.length_eq_zero_iff.mp hlength
  · rintro rfl
    exact ⟨rfl, .nil⟩

/-- Without a move no other vertex is reached. -/
theorem walks_zero_of_ne (h : v ≠ s) : walks edge s 0 v = ∅ := by
  rw [Set.eq_empty_iff_forall_notMem]
  rintro l ⟨hlength, hwalk⟩
  cases hwalk with
  | nil => exact h rfl
  | snoc => exact absurd hlength (Nat.succ_ne_zero _)

/-! ### The last move -/

/-- The walks of `n + 1` moves with this vertex before the last move, which is `d`. -/
def walksVia (edge : V → δ → V → Prop) (s : V) (n : Nat) (w : V) (p : V × δ) : Set (List δ) :=
  {l | ∃ l', l = p.2 :: l' ∧ l' ∈ walks edge s n p.1 ∧ edge p.1 p.2 w}

/-- The walks before the last move, with the move. -/
theorem walksVia_of_edge (h : edge v d w) :
    walksVia edge s n w (v, d) = List.cons d '' walks edge s n v := by
  ext l
  constructor
  · rintro ⟨l', rfl, hl', -⟩
    exact ⟨l', hl', rfl⟩
  · rintro ⟨l', hl', rfl⟩
    exact ⟨l', rfl, hl', h⟩

/-- No walk has a move that does not lead to its end. -/
theorem walksVia_of_not_edge (h : ¬edge v d w) : walksVia edge s n w (v, d) = ∅ := by
  rw [Set.eq_empty_iff_forall_notMem]
  rintro l ⟨l', -, -, hedge⟩
  exact h hedge

/-- A walk has one last move. -/
theorem eq_of_mem_walksVia (hedge : Functional edge) {p q : V × δ} (hp : l ∈ walksVia edge s n w p)
    (hq : l ∈ walksVia edge s n w q) : p = q := by
  obtain ⟨l', rfl, hp, -⟩ := hp
  obtain ⟨l'', heq, hq, -⟩ := hq
  obtain ⟨hmove, rfl⟩ := List.cons.inj heq
  exact Prod.ext (hp.2.end_eq hedge hq.2) hmove

section
variable {vs : Finset V} {ds : Finset δ}

/-- All walks stay in `vs` and take their moves from `ds`. -/
structure Within (edge : V → δ → V → Prop) (vs : Finset V) (ds : Finset δ) : Prop where
  functional : Functional edge
  vertex : ∀ v d w, v ∈ vs → edge v d w → w ∈ vs
  move : ∀ v d w, edge v d w → d ∈ ds

/-- A walk that starts in `vs` ends there. -/
theorem Within.mem (h : Within edge vs ds) (hs : s ∈ vs) (hwalk : Walk edge s v l) : v ∈ vs := by
  induction hwalk with
  | nil => exact hs
  | snoc _ move ih => exact h.vertex _ _ _ ih move

/-- A walk with one more move has a vertex of `vs` before it and a move of `ds`. -/
theorem Within.walks_succ (h : Within edge vs ds) (hs : s ∈ vs) (n : Nat) (w : V) :
    walks edge s (n + 1) w = ⋃ p ∈ vs ×ˢ ds, walksVia edge s n w p := by
  ext l
  simp only [Set.mem_iUnion]
  constructor
  · rintro ⟨hlength, hwalk⟩
    cases hwalk with
    | nil => exact absurd hlength (Nat.succ_ne_zero n).symm
    | @snoc v _ d l hwalk hmove =>
      refine ⟨(v, d), Finset.mem_product.mpr ⟨h.mem hs hwalk, h.move _ _ _ hmove⟩, l, rfl,
        ⟨Nat.succ.inj hlength, hwalk⟩, hmove⟩
  · rintro ⟨p, -, l', rfl, ⟨hlength, hwalk⟩, hmove⟩
    exact ⟨congrArg Nat.succ hlength, .snoc hwalk hmove⟩

/-- A last move adds no walks. -/
theorem finite_walksVia (h : (walks edge s n v).Finite) (d : δ) (w : V) :
    (walksVia edge s n w (v, d)).Finite :=
  (h.image (List.cons d)).subset fun _ ⟨l', heq, hl', _⟩ => ⟨l', hl', heq.symm⟩

/-- There are finitely many walks of a length. -/
theorem Within.finite (h : Within edge vs ds) (hs : s ∈ vs) (n : Nat) (v : V) :
    (walks edge s n v).Finite := by
  induction n generalizing v with
  | zero =>
    by_cases hv : v = s
    · subst hv
      rw [walks_zero_self]
      exact Set.finite_singleton []
    · rw [walks_zero_of_ne hv]
      exact Set.finite_empty
  | succ n ih =>
    rw [h.walks_succ hs]
    exact Set.Finite.biUnion (vs ×ˢ ds).finite_toSet fun p _ => finite_walksVia (ih p.1) p.2 v

/-- The number of the walks by the vertex before the last move, and by that move. -/
theorem Within.ncard_walks_succ [∀ v d w, Decidable (edge v d w)] (h : Within edge vs ds)
    (hs : s ∈ vs) (n : Nat) (w : V) : (walks edge s (n + 1) w).ncard
      = ∑ v ∈ vs, ∑ d ∈ ds, if edge v d w then (walks edge s n v).ncard else 0 := by
  have hcard : ∀ p ∈ vs ×ˢ ds, (walksVia edge s n w p).ncard
      = if edge p.1 p.2 w then (walks edge s n p.1).ncard else 0 := by
    rintro ⟨v, d⟩ -
    split
    · rename_i hmove
      rw [walksVia_of_edge hmove, Set.ncard_image_of_injective _ List.cons_injective]
    · rename_i hmove
      rw [walksVia_of_not_edge hmove, Set.ncard_empty]
  -- The sets for different last moves are disjoint.
  have hunion := (vs ×ˢ ds).finite_toSet.ncard_biUnion
    (fun p _ => finite_walksVia (h.finite hs n p.1) p.2 w)
    (fun p _ q _ hpq => Set.disjoint_left.mpr fun l hp hq =>
      hpq (eq_of_mem_walksVia h.functional hp hq))
  rw [finsum_mem_coe_finset, Finset.sum_congr rfl hcard, Finset.sum_product] at hunion
  rw [h.walks_succ hs]
  exact hunion

/-! ### Walks back -/

/-- A walk with every move taken back, from its end. -/
theorem Walk.back {inv : δ → δ} (h : Within edge vs ds) (hs : s ∈ vs)
    (hinv : ∀ v d w, v ∈ vs → edge v d w → edge w (inv d) v) (hwalk : Walk edge s v l) :
    Walk edge v s (l.map inv).reverse := by
  induction hwalk with
  | nil => exact .nil
  | snoc walk move ih =>
    rw [List.map_cons, List.reverse_cons]
    exact Walk.cons (hinv _ _ _ (h.mem hs walk) move) ih

/-- There are no fewer walks back, since each one can be taken back. -/
theorem Within.ncard_le_back {inv : δ → δ} (h : Within edge vs ds) (hs : s ∈ vs) (hv : v ∈ vs)
    (hinv : ∀ v d w, v ∈ vs → edge v d w → edge w (inv d) v) (hinj : Function.Injective inv)
    (n : Nat) : (walks edge s n v).ncard ≤ (walks edge v n s).ncard := by
  refine Set.ncard_le_ncard_of_injOn (fun l => (l.map inv).reverse) ?_ ?_ (h.finite hv n s)
  · rintro l ⟨hlength, hwalk⟩
    exact ⟨by rw [List.length_reverse, List.length_map, hlength], hwalk.back h hs hinv⟩
  · intro l _ l' _ heq
    exact List.map_injective_iff.mpr hinj (List.reverse_injective heq)

/-- There are as many walks in one direction as in the other. -/
theorem Within.ncard_walks_comm {inv : δ → δ} (h : Within edge vs ds) (hs : s ∈ vs) (hv : v ∈ vs)
    (hinv : ∀ v d w, v ∈ vs → edge v d w → edge w (inv d) v) (hinj : Function.Injective inv)
    (n : Nat) : (walks edge s n v).ncard = (walks edge v n s).ncard :=
  Nat.le_antisymm (h.ncard_le_back hs hv hinv hinj n) (h.ncard_le_back hv hs hinv hinj n)

end

end LearnGit.Lib
