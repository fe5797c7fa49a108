import Mathlib.Data.List.Basic
import Mathlib.Logic.Function.Basic
import Mathlib.Tactic.Common

/-!
# `LearnGit.Lib.Slice`: segments of an array

An array is a function from indices to elements, and `slice a lo k` lists its `k` elements from
`lo` on. What is stated of a sort is stated of slices: the elements of a segment are in order
(`pairwise_slice`), and they are a permutation of what they were (`slice_swap_perm`).
-/

set_option autoImplicit false

namespace LearnGit.Lib

variable {α : Type} {a b : Nat → α} {lo k i j : Nat}

/-- The elements `a lo, …, a (lo + k - 1)`. -/
def slice (a : Nat → α) (lo k : Nat) : List α := (List.range' lo k).map a

/-- An empty slice. -/
@[simp] theorem slice_zero : slice a lo 0 = [] := rfl

/-- `slice a lo k` has `k` elements. -/
@[simp] theorem slice_length : (slice a lo k).length = k := by
  rw [slice, List.length_map, List.length_range']

/-- The first element of a slice. -/
theorem slice_succ : slice a lo (k + 1) = a lo :: slice a (lo + 1) k := by
  rw [slice, List.range'_succ, List.map_cons]
  rfl

/-- Two slices side by side. -/
theorem slice_add (l : Nat) : slice a lo (k + l) = slice a lo k ++ slice a (lo + k) l := by
  rw [slice, slice, slice, ← List.map_append, List.range'_append_1]

/-- A segment in two parts. -/
theorem slice_split {mid hi : Nat} (hlo : lo ≤ mid) (hhi : mid ≤ hi) :
    slice a lo (hi - lo) = slice a lo (mid - lo) ++ slice a mid (hi - mid) := by
  have hadd : slice a lo (mid - lo + (hi - mid))
      = slice a lo (mid - lo) ++ slice a (lo + (mid - lo)) (hi - mid) := slice_add _
  rw [Nat.add_sub_of_le hlo] at hadd
  rw [← hadd]
  congr 1
  omega

/-- The last element of a slice. -/
theorem slice_concat : slice a lo (k + 1) = slice a lo k ++ [a (lo + k)] := slice_add 1

/-- A slice depends on its places only. -/
theorem slice_congr (h : ∀ i, lo ≤ i → i < lo + k → a i = b i) : slice a lo k = slice b lo k := by
  refine List.map_congr_left fun i hi => ?_
  rw [List.mem_range'_1] at hi
  exact h i hi.1 hi.2

/-- Equal slices have equal elements. -/
theorem eq_of_slice_eq (h : slice a lo k = slice b lo k) (hlo : lo ≤ i) (hi : i < lo + k) :
    a i = b i :=
  List.map_inj_left.mp h i (List.mem_range'_1.mpr ⟨hlo, hi⟩)

/-- The element at an index of a slice. -/
@[simp] theorem getElem_slice (h : i < (slice a lo k).length) :
    (slice a lo k)[i] = a (lo + i) := by
  simp [slice]

/-- A relation between all elements of a slice, by their places. -/
theorem pairwise_slice {R : α → α → Prop} :
    (slice a lo k).Pairwise R ↔ ∀ i j, lo ≤ i → i < j → j < lo + k → R (a i) (a j) := by
  rw [List.pairwise_iff_getElem]
  constructor
  · intro h i j hlo hij hj
    have hget := h (i - lo) (j - lo) (by rw [slice_length]; omega) (by rw [slice_length]; omega)
      (by omega)
    rwa [getElem_slice, getElem_slice, Nat.add_sub_of_le hlo,
      Nat.add_sub_of_le (by omega)] at hget
  · intro h i j hi hj hij
    rw [slice_length] at hi hj
    rw [getElem_slice, getElem_slice]
    exact h _ _ (by omega) (by omega) (by omega)

/-- A change of one place is a change of one element. -/
theorem slice_update {x : α} (hlo : lo ≤ i) :
    slice (Function.update a i x) lo k = (slice a lo k).set (i - lo) x := by
  refine List.ext_getElem (by simp) fun j hj _ => ?_
  rw [getElem_slice, List.getElem_set, getElem_slice, Function.update_apply]
  refine if_congr ?_ rfl rfl
  omega

/-- Two elements that change places. -/
theorem slice_swap_perm (hi : lo ≤ i) (hik : i < lo + k) (hj : lo ≤ j) (hjk : j < lo + k) :
    (slice (Function.update (Function.update a i (a j)) j (a i)) lo k).Perm (slice a lo k) := by
  have hi' : i - lo < (slice a lo k).length := by
    rw [slice_length]
    omega
  have hj' : j - lo < (slice a lo k).length := by
    rw [slice_length]
    omega
  have hswap := List.set_set_perm hi' hj'
  rw [getElem_slice, getElem_slice, Nat.add_sub_of_le hi, Nat.add_sub_of_le hj] at hswap
  rw [slice_update hj, slice_update hi]
  exact hswap

end LearnGit.Lib
