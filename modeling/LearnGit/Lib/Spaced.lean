import Mathlib.Algebra.BigOperators.Group.Finset.Basic
import Mathlib.Algebra.Order.Monoid.Defs
import Mathlib.Order.Bounds.Basic
import Mathlib.Order.Interval.Finset.Nat

/-!
# `LearnGit.Lib.Spaced`: the greatest sum without neighbours

`spacedSums f a m` are the sums of `f` over the sets of numbers from `a` to `a + m - 1` of which no
two are neighbours, and `best f a m` is the greatest of them (`best_greatest`). `roundSums f n` are
the sums over the sets of positions on a circle of `n`, where the last one and the first one are
neighbours too. A set does without one of these two, so that the greatest sum on the circle is that
of one of two lines (`roundSums_greatest`).
-/

set_option autoImplicit false

namespace LearnGit.Lib

variable {M : Type} [AddCommMonoid M]

/-- No two numbers of the set are neighbours. -/
def Spaced (S : Finset Nat) : Prop := ∀ i ∈ S, i + 1 ∉ S

/-- The sums over `m` places from `a` on. -/
def spacedSums (f : Nat → M) (a m : Nat) : Set M :=
  {x | ∃ S ⊆ Finset.Ico a (a + m), Spaced S ∧ ∑ i ∈ S, f i = x}

/-- The sums over the places of a circle. -/
def roundSums (f : Nat → M) (n : Nat) : Set M :=
  {x | ∃ S ⊆ Finset.range n, (∀ i ∈ S, (i + 1) % n ∉ S) ∧ ∑ i ∈ S, f i = x}

variable {f : Nat → M} {a m n : Nat}

/-! ### On a line -/

/-- Over no places there is the empty sum only. -/
theorem spacedSums_zero : spacedSums f a 0 = {0} := by
  ext x
  constructor
  · rintro ⟨S, hS, -, rfl⟩
    rw [Nat.add_zero, Finset.Ico_self, Finset.subset_empty] at hS
    rw [hS, Finset.sum_empty]
    rfl
  · rintro rfl
    exact ⟨∅, Finset.empty_subset _, fun i hi => absurd hi (Finset.notMem_empty i), rfl⟩

/-- More places have more sums. -/
theorem spacedSums_mono (h : m ≤ n) : spacedSums f a m ⊆ spacedSums f a n := by
  rintro x ⟨S, hS, hspaced, rfl⟩
  exact ⟨S, hS.trans (Finset.Ico_subset_Ico_right (Nat.add_le_add_left h a)), hspaced, rfl⟩

/-- A sum over one place more, with this place, is a sum over the places before its neighbour. -/
theorem spacedSums_succ_cases {x : M} (h : x ∈ spacedSums f a (m + 1)) :
    x ∈ spacedSums f a m ∨ ∃ y ∈ spacedSums f a (m - 1), x = y + f (a + m) := by
  obtain ⟨S, hS, hspaced, rfl⟩ := h
  by_cases hlast : a + m ∈ S
  · refine .inr ⟨∑ i ∈ S.erase (a + m), f i, ⟨S.erase (a + m), fun i hi => ?_, ?_, rfl⟩, ?_⟩
    · obtain ⟨hne, hmem⟩ := Finset.mem_erase.mp hi
      have hi' := Finset.mem_Ico.mp (hS hmem)
      -- The neighbour of the last place is not in the set.
      have hbefore : i + 1 ≠ a + m := fun heq => hspaced i hmem (heq ▸ hlast)
      exact Finset.mem_Ico.mpr (by omega)
    · intro i hi hnext
      exact hspaced i (Finset.mem_of_mem_erase hi) (Finset.mem_of_mem_erase hnext)
    · exact (Finset.sum_erase_add S f hlast).symm
  · refine .inl ⟨S, fun i hi => ?_, hspaced, rfl⟩
    have hi' := Finset.mem_Ico.mp (hS hi)
    have hne : i ≠ a + m := fun heq => hlast (heq ▸ hi)
    exact Finset.mem_Ico.mpr (by omega)

/-- The last place is added to a sum that leaves out the one before it. -/
theorem spacedSums_succ_mem {y : M} (h : y ∈ spacedSums f a (m - 1)) :
    y + f (a + m) ∈ spacedSums f a (m + 1) := by
  obtain ⟨S, hS, hspaced, rfl⟩ := h
  have hbefore : ∀ i ∈ S, a ≤ i ∧ i < a + (m - 1) := fun i hi => Finset.mem_Ico.mp (hS hi)
  have hnot : a + m ∉ S := fun hmem => by have := hbefore _ hmem; omega
  refine ⟨insert (a + m) S, ?_, ?_, ?_⟩
  · intro i hi
    rcases Finset.mem_insert.mp hi with rfl | hi
    · exact Finset.mem_Ico.mpr (by omega)
    · have := hbefore i hi
      exact Finset.mem_Ico.mpr (by omega)
  · intro i hi hnext
    rw [Finset.mem_insert] at hi hnext
    rcases hi with rfl | hi <;> rcases hnext with hnext | hnext
    · omega
    · have := hbefore _ hnext
      omega
    · have := hbefore i hi
      omega
    · exact hspaced i hi hnext
  · rw [Finset.sum_insert hnot, add_comm]

/-! ### On a circle -/

/-- A set on a circle leaves out the first place or the last one. -/
theorem roundSums_cases {x : M} (h : x ∈ roundSums f n) :
    x ∈ spacedSums f 0 (n - 1) ∨ x ∈ spacedSums f 1 (n - 1) := by
  obtain ⟨S, hS, hround, rfl⟩ := h
  have hlt : ∀ i ∈ S, i < n := fun i hi => Finset.mem_range.mp (hS hi)
  have hspaced : Spaced S := by
    intro i hi hnext
    refine hround i hi ?_
    rwa [Nat.mod_eq_of_lt (hlt _ hnext)]
  by_cases hfirst : 0 ∈ S
  · refine .inl ⟨S, fun i hi => ?_, hspaced, rfl⟩
    have hi' := hlt i hi
    -- The last place is a neighbour of the first one.
    have hne : i + 1 ≠ n := by
      rintro rfl
      refine hround i hi ?_
      rwa [Nat.mod_self]
    exact Finset.mem_Ico.mpr (by omega)
  · refine .inr ⟨S, fun i hi => ?_, hspaced, rfl⟩
    have hi' := hlt i hi
    have hne : i ≠ 0 := fun heq => hfirst (heq ▸ hi)
    exact Finset.mem_Ico.mpr (by omega)

/-- A set on the line without one of the ends is one on the circle. -/
theorem roundSums_of_line {x : M} (hn : 2 ≤ n) (ha : a ≤ 1) (h : x ∈ spacedSums f a (n - 1)) :
    x ∈ roundSums f n := by
  obtain ⟨S, hS, hspaced, rfl⟩ := h
  have hS' : ∀ i ∈ S, a ≤ i ∧ i < a + (n - 1) := fun i hi => Finset.mem_Ico.mp (hS hi)
  refine ⟨S, fun i hi => ?_, fun i hi hnext => ?_, rfl⟩
  · have := hS' i hi
    exact Finset.mem_range.mpr (by omega)
  · have hi' := hS' i hi
    rcases Nat.lt_or_ge (i + 1) n with hlt | hge
    · rw [Nat.mod_eq_of_lt hlt] at hnext
      exact hspaced i hi hnext
    -- The neighbour of the last place is the first one, and the line has only one of them.
    · obtain rfl : n = i + 1 := by omega
      rw [Nat.mod_self] at hnext
      have := hS' 0 hnext
      omega

/-- A set of the places of a circle is one of a larger circle too. -/
theorem roundSums_mono (h : m ≤ n) : roundSums f m ⊆ roundSums f n := by
  rcases Nat.lt_or_eq_of_le h with hlt | rfl
  · rintro x ⟨S, hS, hround, rfl⟩
    refine ⟨S, hS.trans (Finset.range_subset_range.mpr h), fun i hi hnext => ?_, rfl⟩
    have hi' := Finset.mem_range.mp (hS hi)
    rw [Nat.mod_eq_of_lt (by omega)] at hnext
    have hnext' := Finset.mem_range.mp (hS hnext)
    refine hround i hi ?_
    rwa [Nat.mod_eq_of_lt hnext']
  · exact fun _ hx => hx

/-! ### The greatest sum -/

variable [LinearOrder M]

/-- The greatest sum: without the last place, or with it and without the one before. -/
def best (f : Nat → M) (a : Nat) : Nat → M
  | 0 => 0
  | 1 => max 0 (f a)
  | m + 2 => max (best f a (m + 1)) (best f a m + f (a + m + 1))

/-- The greatest sum over one place more. -/
theorem best_succ (f : Nat → M) (a m : Nat) :
    best f a (m + 1) = max (best f a m) (best f a (m - 1) + f (a + m)) := by
  cases m with
  | zero => rw [best, best, zero_add, Nat.add_zero]
  | succ m => rw [best]; rfl

/-- More places have no smaller greatest sum. -/
theorem best_mono (h : m ≤ n) : best f a m ≤ best f a n := by
  induction n, h using Nat.le_induction with
  | base => exact le_rfl
  | succ n _ ih =>
    rw [best_succ]
    exact ih.trans (le_max_left _ _)

/-- The empty sum is one of them. -/
theorem best_nonneg : 0 ≤ best f a m := best_mono (f := f) (a := a) (Nat.zero_le m)

variable [IsOrderedAddMonoid M]

/-- `best` is the greatest sum over the places. -/
theorem best_greatest (f : Nat → M) (a m : Nat) : IsGreatest (spacedSums f a m) (best f a m) := by
  induction m using Nat.strong_induction_on with
  | h m ih =>
    cases m with
    | zero =>
      rw [spacedSums_zero]
      exact isGreatest_singleton
    | succ m =>
      rw [best_succ]
      constructor
      · rcases max_choice (best f a m) (best f a (m - 1) + f (a + m)) with hmax | hmax
        · rw [hmax]
          exact spacedSums_mono (Nat.le_succ m) (ih m (Nat.lt_succ_self m)).1
        · rw [hmax]
          exact spacedSums_succ_mem (ih (m - 1) (by omega)).1
      -- Every set has the last place or has not.
      · intro x hx
        rcases spacedSums_succ_cases hx with hx | ⟨y, hy, rfl⟩
        · exact ((ih m (Nat.lt_succ_self m)).2 hx).trans (le_max_left _ _)
        · have hy' := (ih (m - 1) (by omega)).2 hy
          exact (add_le_add_left hy' _).trans (le_max_right _ _)

/-- The greatest sum on a circle is that of the line without the first or the last place. -/
theorem roundSums_greatest (f : Nat → M) (hn : 2 ≤ n) :
    IsGreatest (roundSums f n) (max (best f 0 (n - 1)) (best f 1 (n - 1))) := by
  constructor
  · rcases max_choice (best f 0 (n - 1)) (best f 1 (n - 1)) with hmax | hmax
    · rw [hmax]
      exact roundSums_of_line hn (Nat.zero_le 1) (best_greatest f 0 (n - 1)).1
    · rw [hmax]
      exact roundSums_of_line hn le_rfl (best_greatest f 1 (n - 1)).1
  · intro x hx
    rcases roundSums_cases hx with hx | hx
    · exact ((best_greatest f 0 (n - 1)).2 hx).trans (le_max_left _ _)
    · exact ((best_greatest f 1 (n - 1)).2 hx).trans (le_max_right _ _)

end LearnGit.Lib
