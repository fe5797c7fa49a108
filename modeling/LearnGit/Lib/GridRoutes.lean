import Mathlib

/-!
# `LearnGit.Lib.GridRoutes`: counting the shortest routes on a grid

A road of the grid is the step that begins at a point, to the right or up. `Route free x y r` says
that the steps `r` lead from the origin to `(x, y)` along free roads, each of them a step away from
the origin.

`ways free x y` is their number (`ncard_routes`). It is what arrives from the two points before:
`ways_eq` states that with `incoming`, which is linear (`incoming_add`, `incoming_single`), so that
a program may collect the arrivals in any order.
-/

set_option autoImplicit false

namespace LearnGit.Lib

/-- A step away from the origin. -/
inductive Step where
  | right
  | up
  deriving DecidableEq

/-- How far the step goes to the right. -/
def Step.dx : Step → Nat
  | right => 1
  | up => 0

/-- How far the step goes up. -/
def Step.dy : Step → Nat
  | right => 0
  | up => 1

variable {free free' : Nat → Nat → Step → Bool} {x y : Nat}

/-- A shortest route from the origin along free roads, its last step first. -/
inductive Route (free : Nat → Nat → Step → Bool) : Nat → Nat → List Step → Prop where
  | nil : Route free 0 0 []
  | right {x y : Nat} {r : List Step} :
    Route free x y r → free x y .right → Route free (x + 1) y (.right :: r)
  | up {x y : Nat} {r : List Step} :
    Route free x y r → free x y .up → Route free x (y + 1) (.up :: r)

/-- The shortest routes from the origin to `(x, y)`. -/
def routes (free : Nat → Nat → Step → Bool) (x y : Nat) : Set (List Step) :=
  {r | Route free x y r}

/-- More free roads have more routes. -/
theorem Route.mono (h : ∀ a b s, free a b s → free' a b s) {r : List Step}
    (hr : Route free x y r) : Route free' x y r := by
  induction hr with
  | nil => exact Route.nil
  | right _ hfree ih => exact Route.right ih (h _ _ _ hfree)
  | up _ hfree ih => exact Route.up ih (h _ _ _ hfree)

/-! ### What arrives at a point -/

/-- One route begins at the origin. -/
def atOrigin (x y : Nat) : Int := if x = 0 ∧ y = 0 then 1 else 0

/-- What arrives from the left. -/
def fromLeft (free : Nat → Nat → Step → Bool) (f : Nat → Nat → Int) : Nat → Nat → Int
  | 0, _ => 0
  | x + 1, y => if free x y .right then f x y else 0

/-- What arrives from below. -/
def fromBelow (free : Nat → Nat → Step → Bool) (f : Nat → Nat → Int) : Nat → Nat → Int
  | _, 0 => 0
  | x, y + 1 => if free x y .up then f x y else 0

/-- What arrives over the last step, where `f` is at the points before. -/
def incoming (free : Nat → Nat → Step → Bool) (f : Nat → Nat → Int) (x y : Nat) : Int :=
  fromLeft free f x y + fromBelow free f x y

/-- What arrives of a sum. -/
theorem incoming_add (f g : Nat → Nat → Int) :
    incoming free (fun a b => f a b + g a b) x y = incoming free f x y + incoming free g x y := by
  have hleft : fromLeft free (fun a b => f a b + g a b) x y
      = fromLeft free f x y + fromLeft free g x y := by
    cases x with
    | zero => rfl
    | succ x =>
      simp only [fromLeft]
      split <;> rfl
  have hbelow : fromBelow free (fun a b => f a b + g a b) x y
      = fromBelow free f x y + fromBelow free g x y := by
    cases y with
    | zero => rfl
    | succ y =>
      simp only [fromBelow]
      split <;> rfl
  rw [incoming, incoming, incoming, hleft, hbelow]
  omega

/-- What arrives from a single point. -/
theorem incoming_single (i j : Nat) (v : Int) :
    incoming free (fun a b => if a = i ∧ b = j then v else 0) x y
      = (if x = i + 1 ∧ y = j ∧ free i j .right then v else 0)
        + if x = i ∧ y = j + 1 ∧ free i j .up then v else 0 := by
  have hleft : fromLeft free (fun a b => if a = i ∧ b = j then v else 0) x y
      = if x = i + 1 ∧ y = j ∧ free i j .right then v else 0 := by
    cases x with
    | zero => rw [if_neg (by omega), fromLeft]
    | succ x =>
      rw [fromLeft, ← ite_and]
      refine if_congr ?_ rfl rfl
      constructor
      · rintro ⟨hfree, rfl, rfl⟩
        exact ⟨rfl, rfl, hfree⟩
      · rintro ⟨hx, rfl, hfree⟩
        obtain rfl : x = i := Nat.succ.inj hx
        exact ⟨hfree, rfl, rfl⟩
  have hbelow : fromBelow free (fun a b => if a = i ∧ b = j then v else 0) x y
      = if x = i ∧ y = j + 1 ∧ free i j .up then v else 0 := by
    cases y with
    | zero => rw [if_neg (by omega), fromBelow]
    | succ y =>
      rw [fromBelow, ← ite_and]
      refine if_congr ?_ rfl rfl
      constructor
      · rintro ⟨hfree, rfl, rfl⟩
        exact ⟨rfl, rfl, hfree⟩
      · rintro ⟨rfl, hy, hfree⟩
        obtain rfl : y = j := Nat.succ.inj hy
        exact ⟨hfree, rfl, rfl⟩
  rw [incoming, hleft, hbelow]

/-- Only the two points before matter. -/
theorem incoming_congr {f g : Nat → Nat → Int} (hleft : ∀ a, a + 1 = x → f a y = g a y)
    (hbelow : ∀ b, b + 1 = y → f x b = g x b) : incoming free f x y = incoming free g x y := by
  have hl : fromLeft free f x y = fromLeft free g x y := by
    cases x with
    | zero => rfl
    | succ x => rw [fromLeft, fromLeft, hleft x rfl]
  have hb : fromBelow free f x y = fromBelow free g x y := by
    cases y with
    | zero => rfl
    | succ y => rw [fromBelow, fromBelow, hbelow y rfl]
  rw [incoming, incoming, hl, hb]

/-! ### The number of routes -/

/-- The number of shortest routes from the origin to `(x, y)`. -/
def ways (free : Nat → Nat → Step → Bool) : Nat → Nat → Nat
  | 0, 0 => 1
  | x + 1, 0 => if free x 0 .right then ways free x 0 else 0
  | 0, y + 1 => if free 0 y .up then ways free 0 y else 0
  | x + 1, y + 1 =>
    (if free x (y + 1) .right then ways free x (y + 1) else 0)
      + if free (x + 1) y .up then ways free (x + 1) y else 0

/-- The routes to a point are those that begin there and those that arrive. -/
theorem ways_eq (x y : Nat) : (ways free x y : Int)
    = atOrigin x y + incoming free (fun a b => (ways free a b : Int)) x y := by
  cases x with
  | zero =>
    cases y with
    | zero => simp [ways, atOrigin, incoming, fromLeft, fromBelow]
    | succ y => simp [ways, atOrigin, incoming, fromLeft, fromBelow]
  | succ x =>
    cases y with
    | zero => simp [ways, atOrigin, incoming, fromLeft, fromBelow]
    | succ y => simp [ways, atOrigin, incoming, fromLeft, fromBelow]

/-- The only route to the origin is the empty one. -/
theorem routes_zero : routes free 0 0 = {[]} := by
  ext r
  constructor
  · rintro ⟨⟩
    rfl
  · rintro rfl
    exact Route.nil

/-- The routes over `(x, y)` whose last step is `s`. -/
def via (free : Nat → Nat → Step → Bool) (s : Step) (x y : Nat) : Set (List Step) :=
  if free x y s then (s :: ·) '' routes free x y else ∅

/-- A route over `(x, y)` has its last step over a free road. -/
theorem mem_via {s : Step} {r : List Step} :
    r ∈ via free s x y ↔ ∃ r', r = s :: r' ∧ Route free x y r' ∧ free x y s := by
  rw [via]
  split
  · rename_i hfree
    constructor
    · rintro ⟨r', hr', rfl⟩
      exact ⟨r', rfl, hr', hfree⟩
    · rintro ⟨r', rfl, hr', -⟩
      exact ⟨r', hr', rfl⟩
  · rename_i hfree
    constructor
    · intro h
      exact absurd h (Set.notMem_empty r)
    · rintro ⟨-, -, -, h⟩
      exact absurd h hfree

/-- The routes along the lower border arrive from the left. -/
theorem routes_succ_zero (x : Nat) : routes free (x + 1) 0 = via free .right x 0 := by
  ext r
  rw [mem_via]
  constructor
  · intro h
    cases h with
    | right hr' hfree => exact ⟨_, rfl, hr', hfree⟩
  · rintro ⟨r', rfl, hr', hfree⟩
    exact Route.right hr' hfree

/-- The routes along the left border arrive from below. -/
theorem routes_zero_succ (y : Nat) : routes free 0 (y + 1) = via free .up 0 y := by
  ext r
  rw [mem_via]
  constructor
  · intro h
    cases h with
    | up hr' hfree => exact ⟨_, rfl, hr', hfree⟩
  · rintro ⟨r', rfl, hr', hfree⟩
    exact Route.up hr' hfree

/-- Inside the grid a route arrives from the left or from below. -/
theorem routes_succ_succ (x y : Nat) :
    routes free (x + 1) (y + 1) = via free .right x (y + 1) ∪ via free .up (x + 1) y := by
  ext r
  rw [Set.mem_union, mem_via, mem_via]
  constructor
  · intro h
    cases h with
    | right hr' hfree => exact Or.inl ⟨_, rfl, hr', hfree⟩
    | up hr' hfree => exact Or.inr ⟨_, rfl, hr', hfree⟩
  · rintro (⟨r', rfl, hr', hfree⟩ | ⟨r', rfl, hr', hfree⟩)
    · exact Route.right hr' hfree
    · exact Route.up hr' hfree

/-- No route has two last steps. -/
theorem disjoint_via (a b c d : Nat) : Disjoint (via free .right a b) (via free .up c d) := by
  refine Set.disjoint_left.mpr fun r hright hup => ?_
  obtain ⟨l, rfl, -⟩ := mem_via.mp hright
  obtain ⟨u, hu, -⟩ := mem_via.mp hup
  exact Step.noConfusion (List.cons.inj hu).1

/-- There are as many routes over a free road as there are to its start. -/
theorem ncard_via {s : Step} {n : Nat}
    (h : (routes free x y).Finite ∧ (routes free x y).ncard = n) :
    (via free s x y).Finite ∧ (via free s x y).ncard = if free x y s then n else 0 := by
  rw [via]
  split
  · exact ⟨h.1.image _, (Set.ncard_image_of_injective _ List.cons_injective).trans h.2⟩
  · exact ⟨Set.finite_empty, Set.ncard_empty _⟩

/-- `ways` counts the routes. -/
theorem ncard_routes (free : Nat → Nat → Step → Bool) (x y : Nat) :
    (routes free x y).Finite ∧ (routes free x y).ncard = ways free x y := by
  induction x generalizing y with
  | zero =>
    induction y with
    | zero =>
      rw [routes_zero, ways]
      exact ⟨Set.finite_singleton _, Set.ncard_singleton _⟩
    | succ y ih =>
      rw [routes_zero_succ, ways]
      exact ncard_via ih
  | succ x ihx =>
    induction y with
    | zero =>
      rw [routes_succ_zero, ways]
      exact ncard_via (ihx 0)
    | succ y ihy =>
      -- The routes by their last step, which is to the right or up and never both.
      obtain ⟨hright, hcardRight⟩ := ncard_via (s := .right) (ihx (y + 1))
      obtain ⟨hup, hcardUp⟩ := ncard_via (s := .up) ihy
      rw [routes_succ_succ, ways]
      refine ⟨hright.union hup, ?_⟩
      rw [Set.ncard_union_eq (disjoint_via _ _ _ _) hright hup, hcardRight, hcardUp]

/-- The number is positive exactly where there is a route. -/
theorem ways_pos : 0 < ways free x y ↔ ∃ r, Route free x y r := by
  obtain ⟨hfin, hcard⟩ := ncard_routes free x y
  rw [← hcard]
  exact Set.ncard_pos hfin

/-- Fewer free roads leave as many routes where each route stays. -/
theorem ways_eq_ways_iff (h : ∀ a b s, free a b s → free' a b s) :
    ways free x y = ways free' x y ↔ ∀ r, Route free' x y r → Route free x y r := by
  obtain ⟨hfin, hcard⟩ := ncard_routes free x y
  obtain ⟨hfin', hcard'⟩ := ncard_routes free' x y
  have hsub : routes free x y ⊆ routes free' x y := fun r hr => Route.mono h hr
  rw [← hcard, ← hcard']
  constructor
  · -- A subset of a finite set with as many elements is the whole set.
    intro heq r hr
    have hroutes := Set.eq_of_subset_of_ncard_le hsub (Nat.le_of_eq heq.symm) hfin'
    show r ∈ routes free x y
    rw [hroutes]
    exact hr
  · intro hall
    rw [Set.Subset.antisymm hsub hall]

end LearnGit.Lib
