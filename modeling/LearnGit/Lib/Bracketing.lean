import Mathlib.Algebra.Order.Monoid.Defs
import Mathlib.Order.Bounds.Basic
import Mathlib.Tactic.Common

/-!
# `LearnGit.Lib.Bracketing`: the least cost of a bracketing

A bracketing of the factors from `i` to `j` is a binary tree with these factors as its leaves, in
their order. It costs what its nodes cost, and the node that joins the products of `i` to `k` and of
`k + 1` to `j` costs `w i k j`.

A best bracketing has its outermost node at the best split of best bracketings
(`isLeast_costs_of_split`). A table of splits stands for one bracketing of every interval
(`AtSplits`), and its cost is the one that a table of costs has (`SplitTable`).
-/

set_option autoImplicit false

namespace LearnGit.Lib

variable {α : Type} [AddCommMonoid α]

/-- A way to bracket the factors from `i` to `j`. -/
inductive Bracketing : Nat → Nat → Type
  | leaf (i : Nat) : Bracketing i i
  | node {i k j : Nat} (left : Bracketing i k) (right : Bracketing (k + 1) j) : Bracketing i j

namespace Bracketing

variable {w : Nat → Nat → Nat → α} {i j k : Nat}

/-- The cost of all nodes. -/
def cost (w : Nat → Nat → Nat → α) : {i j : Nat} → Bracketing i j → α
  | _, _, leaf _ => 0
  | _, _, @node i k j left right => cost w left + cost w right + w i k j

/-- The costs of all bracketings of an interval. -/
def costs (w : Nat → Nat → Nat → α) (i j : Nat) : Set α :=
  Set.range (cost w (i := i) (j := j))

/-- Every node splits its interval as the table says. -/
def AtSplits (s : Nat → Nat → Int) : {i j : Nat} → Bracketing i j → Prop
  | _, _, leaf _ => True
  | _, _, @node i k j left right => s i j = k ∧ AtSplits s left ∧ AtSplits s right

/-- An interval with a bracketing is not empty. -/
theorem le (t : Bracketing i j) : i ≤ j := by
  induction t with
  | leaf i => exact Nat.le_refl i
  | node left right ihl ihr => omega

/-- One factor has nothing to bracket. -/
theorem cost_self (t : Bracketing i i) : cost w t = 0 := by
  cases t with
  | leaf => rfl
  | node left right =>
    have hl := left.le
    have hr := right.le
    omega

/-- The cost of the best bracketings of the two parts, and of the node. -/
def splitCost (w : Nat → Nat → Nat → α) (c : Nat → Nat → α) (i k j : Nat) : α :=
  c i k + c (k + 1) j + w i k j

section
variable [PartialOrder α]

/-- One factor alone costs nothing. -/
theorem isLeast_costs_self (w : Nat → Nat → Nat → α) (i : Nat) : IsLeast (costs w i i) 0 := by
  refine ⟨⟨leaf i, rfl⟩, ?_⟩
  rintro x ⟨t, rfl⟩
  exact (cost_self t).ge

/-- The outermost node of a best bracketing. -/
theorem isLeast_costs_of_split [IsOrderedAddMonoid α] {c : Nat → Nat → α} (hik : i ≤ k)
    (hkj : k < j) (hleft : ∀ a, i ≤ a → a < j → IsLeast (costs w i a) (c i a))
    (hright : ∀ a, i ≤ a → a < j → IsLeast (costs w (a + 1) j) (c (a + 1) j))
    (hmin : ∀ a, i ≤ a → a < j → splitCost w c i k j ≤ splitCost w c i a j) :
    IsLeast (costs w i j) (splitCost w c i k j) := by
  constructor
  · obtain ⟨left, hl⟩ := (hleft k hik hkj).1
    obtain ⟨right, hr⟩ := (hright k hik hkj).1
    exact ⟨node left right, by rw [cost, hl, hr, splitCost]⟩
  · rintro x ⟨t, rfl⟩
    cases t with
    | leaf => omega
    | @node _ a _ left right =>
      -- Its parts cost no less than the best ones, and its split is no better.
      have hia := left.le
      have haj := right.le
      calc splitCost w c i k j ≤ splitCost w c i a j := hmin a hia haj
        _ ≤ cost w left + cost w right + w i a j := by
          refine add_le_add_left (add_le_add ?_ ?_) _
          · exact (hleft a hia haj).2 ⟨left, rfl⟩
          · exact (hright a hia haj).2 ⟨right, rfl⟩

end

/-- The intervals from `lo` to `hi` have splits, and costs that fit them. -/
structure SplitTable (w : Nat → Nat → Nat → α) (c : Nat → Nat → α) (s : Nat → Nat → Int)
    (lo hi : Nat) : Prop where
  self : ∀ i, lo ≤ i → i ≤ hi → c i i = 0
  split : ∀ i j, lo ≤ i → i < j → j ≤ hi →
    ∃ k, i ≤ k ∧ k < j ∧ s i j = k ∧ c i j = splitCost w c i k j

variable {c : Nat → Nat → α} {s : Nat → Nat → Int} {lo hi : Nat}

/-- To split again and again ends with a bracketing. -/
theorem SplitTable.exists_atSplits (h : SplitTable w c s lo hi) (hlo : lo ≤ i) (hij : i ≤ j)
    (hhi : j ≤ hi) : ∃ t : Bracketing i j, AtSplits s t := by
  induction hn : j - i using Nat.strongRecOn generalizing i j with
  | ind n ih =>
    rcases Nat.lt_or_eq_of_le hij with hlt | rfl
    · obtain ⟨k, hik, hkj, hs, -⟩ := h.split i j hlo hlt hhi
      obtain ⟨left, hl⟩ := ih (k - i) (by omega) hlo hik (by omega) rfl
      obtain ⟨right, hr⟩ := ih (j - (k + 1)) (by omega) (by omega) hkj hhi rfl
      exact ⟨node left right, hs, hl, hr⟩
    · exact ⟨leaf i, trivial⟩

/-- It costs what the table of costs says. -/
theorem SplitTable.cost_eq (h : SplitTable w c s lo hi) (t : Bracketing i j) (ht : AtSplits s t)
    (hlo : lo ≤ i) (hhi : j ≤ hi) : cost w t = c i j := by
  induction t with
  | leaf i => exact (h.self i hlo hhi).symm
  | @node i a j left right ihl ihr =>
    obtain ⟨hs, hl, hr⟩ := ht
    have hia := left.le
    have haj := right.le
    obtain ⟨k, hik, hkj, hs', hc⟩ := h.split i j hlo (by omega) hhi
    obtain rfl : a = k := by omega
    rw [cost, ihl hl hlo (by omega), ihr hr (by omega) hhi, hc, splitCost]

end Bracketing

end LearnGit.Lib
