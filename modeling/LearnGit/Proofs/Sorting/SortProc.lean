import LearnGit.Lib.Slice
import LearnGit.Sorting.SortProc

/-!
# `LearnGit.Proofs.Sorting.SortProc`: the three sorts leave the same array

`sorts_interchangeable_iff`: the three sorts leave the same ascending permutation of the array
exactly when it has at most `2 ^ 30 + 1` elements. Beyond that the sum of two indices in `MSort`
does not fit an `int`.

An insertion is a row of swaps with the element that is being inserted, whatever the increment is
(`shellShift_rearranged`), so every pass of `Shellsort` rearranges the array. Its last pass has the
increment 1, and that pass is `InsertionSort` (`insertionSort_eq_shellPass`). `Merge` leaves what
`List.merge` makes of the two halves (`merge_spec`).
-/

set_option autoImplicit false

namespace LearnGit.Proofs.Sorting

open LearnGit.Lib
open LearnGit.Sorting

/-! ### Statement -/

/-- The first `N` elements are in ascending order. -/
def Ascending (N : Nat) (A : IntArray) : Prop := (slice A 0 N).Pairwise (· ≤ ·)

/-- The first `N` elements are permuted, and the others are where they were. -/
structure Rearranged (N : Nat) (A B : IntArray) : Prop where
  perm : (slice B 0 N).Perm (slice A 0 N)
  frame : ∀ i, N ≤ i → B i = A i

/-- The three sorts leave the same ascending permutation of the array, whatever `malloc` finds in
the memory it gives to `Mergesort`. -/
def Interchangeable (A : IntArray) (N : Nat) : Prop :=
  ∃ B, Ascending N B ∧ Rearranged N A B ∧ insertionSort A N = B ∧ shellsort A N = B ∧
    ∀ TmpArray, mergesort (some TmpArray) A N = some B

/-- An array is a permutation of itself. -/
theorem Rearranged.refl (N : Nat) (A : IntArray) : Rearranged N A A :=
  ⟨List.Perm.refl _, fun _ _ => rfl⟩

/-- One permutation after the other. -/
theorem Rearranged.trans {N : Nat} {A B C : IntArray} (h : Rearranged N A B)
    (h' : Rearranged N B C) : Rearranged N A C :=
  ⟨h'.perm.trans h.perm, fun i hi => (h'.frame i hi).trans (h.frame i hi)⟩

/-- An ascending permutation is the only one. -/
theorem Rearranged.eq {N : Nat} {A B C : IntArray} (hB : Rearranged N A B) (hC : Rearranged N A C)
    (hsB : Ascending N B) (hsC : Ascending N C) : B = C := by
  have hslice : slice B 0 N = slice C 0 N :=
    (hB.perm.trans hC.perm.symm).eq_of_pairwise (fun _ _ _ _ => Int.le_antisymm) hsB hsC
  funext i
  rcases Nat.lt_or_ge i N with hlt | hge
  · exact eq_of_slice_eq hslice (Nat.zero_le i) (by omega)
  · rw [hB.frame i hge, hC.frame i hge]

/-! ### Insertion with an increment -/

section Shell

variable {Increment N : Nat}

/-- Two elements that change places. -/
theorem rearranged_swap {A : IntArray} {i j : Nat} (hi : i < N) (hj : j < N) :
    Rearranged N A (Function.update (Function.update A i (A j)) j (A i)) where
  perm := slice_swap_perm (Nat.zero_le i) (by omega) (Nat.zero_le j) (by omega)
  frame := by
    intro k hk
    rw [Function.update_of_ne (by omega), Function.update_of_ne (by omega)]

/-- With the inserted element in the gap at `j`, the loop swaps it down. -/
theorem shellShift_rearranged (hpos : 0 < Increment) (Tmp : Int) (j : Nat) (A : IntArray)
    (hj : j < N) :
    Rearranged N (Function.update A j Tmp)
      (Function.update (shellShift hpos Tmp j A).1 (shellShift hpos Tmp j A).2 Tmp) := by
  fun_induction shellShift hpos Tmp j A with
  | case1 j A hle hlt ih =>
    -- Moving `A[j - Increment]` up and the gap down is a swap with the inserted element.
    have hne : j - Increment ≠ j := by omega
    have hswap := rearranged_swap (A := Function.update A j Tmp) hj
      (show j - Increment < N by omega)
    rw [Function.update_self, Function.update_of_ne hne, Function.update_idem] at hswap
    exact hswap.trans (ih (by omega))
  | case2 j A hle hge => exact Rearranged.refl N _
  | case3 j A hlt => exact Rearranged.refl N _

/-- A round permutes the array. -/
theorem shellRound_rearranged (hpos : 0 < Increment) {i : Nat} (hi : i < N) (A : IntArray) :
    Rearranged N A (shellRound hpos i A) := by
  have hshift := shellShift_rearranged hpos (A i) i A hi
  rw [Function.update_eq_self] at hshift
  exact hshift

/-- A pass permutes the array. -/
theorem shellPass_rearranged (hpos : 0 < Increment) (A : IntArray) :
    Rearranged N A (shellPass hpos N A) := by
  refine forUp_inv (I := Rearranged N A) (Rearranged.refl N A) ?_
  intro i _ hi B hB
  exact hB.trans (shellRound_rearranged hpos hi B)

end Shell

/-! ### The increment 1 -/

/-- The elements up to `i` are in order but for the gap at `j`, and those behind the gap are
greater than the one to be inserted. -/
structure GapAt (i j : Nat) (Tmp : Int) (arr : IntArray) : Prop where
  sorted : ∀ a b, a < b → b ≤ i → a ≠ j → b ≠ j → arr a ≤ arr b
  above : ∀ k, j < k → k ≤ i → Tmp < arr k

/-- The loop closes the gap where the order is right. -/
theorem insertionShift_sorted {i : Nat} (Tmp : Int) (j : Nat) :
    ∀ arr, j ≤ i → GapAt i j Tmp arr → ∀ a b, a < b → b ≤ i →
      Function.update (insertionShift Tmp j arr).1 (insertionShift Tmp j arr).2 Tmp a
        ≤ Function.update (insertionShift Tmp j arr).1 (insertionShift Tmp j arr).2 Tmp b := by
  induction j with
  | zero =>
    intro arr _ h a b hab hb
    rw [insertionShift, Function.update_of_ne (a := b) (by omega), Function.update_apply]
    split
    · exact Int.le_of_lt (h.above b (by omega) hb)
    · exact h.sorted a b hab hb (by omega) (by omega)
  | succ j ih =>
    intro arr hj h
    rw [insertionShift]
    split
    · -- `arr[j]` is moved into the gap, which is at `j` then.
      rename_i hgt
      refine ih _ (by omega) ⟨?_, ?_⟩
      · intro a b hab hb ha hb'
        rw [Function.update_apply, Function.update_apply]
        split
        · rw [if_neg (by omega)]
          exact h.sorted j b (by omega) hb (by omega) (by omega)
        · split
          · exact h.sorted a j (by omega) (by omega) (by omega) (by omega)
          · exact h.sorted a b hab hb (by omega) (by omega)
      · intro k hk hki
        rw [Function.update_apply]
        split
        · exact hgt
        · exact h.above k (by omega) hki
    · rename_i hle
      intro a b hab hb
      dsimp only
      rw [Function.update_apply, Function.update_apply]
      split
      · rw [if_neg (by omega)]
        exact Int.le_of_lt (h.above b (by omega) hb)
      · split
        · -- What stands before the gap is at most the element there, which is not moved.
          rcases Nat.lt_or_eq_of_le (show a ≤ j by omega) with haj | rfl
          · exact Int.le_trans (h.sorted a j haj (by omega) (by omega) (by omega))
              (Int.not_lt.mp hle)
          · exact Int.not_lt.mp hle
        · exact h.sorted a b hab hb (by omega) (by omega)

/-- A round puts the next element in order. -/
theorem insertionRound_sorted {p : Nat} {arr : IntArray}
    (h : ∀ a b, a < b → b < p → arr a ≤ arr b) :
    ∀ a b, a < b → b < p + 1 → insertionRound p arr a ≤ insertionRound p arr b := by
  have hgap : GapAt p p (arr p) arr := by
    refine ⟨?_, ?_⟩
    · intro a b hab hb _ hbp
      exact h a b hab (by omega)
    · intro k hk hkp
      omega
  intro a b hab hb
  exact insertionShift_sorted (arr p) p arr (Nat.le_refl p) hgap a b hab (by omega)

/-- `Insertion_sort` sorts. -/
theorem insertionSort_ascending (arr : IntArray) (n : Nat) : Ascending n (insertionSort arr n) := by
  rw [Ascending, pairwise_slice]
  rcases Nat.eq_zero_or_pos n with rfl | hpos
  · intro i j _ hij hj
    omega
  · have hsorted : ∀ a b, a < b → b < n → insertionSort arr n a ≤ insertionSort arr n b := by
      refine forUp_induct (P := fun p (arr : IntArray) => ∀ a b, a < b → b < p → arr a ≤ arr b)
        hpos ?_ ?_
      · intro a b hab hb
        omega
      · intro p _ _ arr h
        exact insertionRound_sorted h
    intro i j _ hij hj
    exact hsorted i j hij (by omega)

/-- With the increment 1 the elements are shifted as in `Insertion_sort`. -/
theorem shellShift_one (hpos : 0 < 1) (Tmp : Int) (j : Nat) :
    ∀ A, shellShift hpos Tmp j A = insertionShift Tmp j A := by
  induction j with
  | zero =>
    intro A
    rw [shellShift, dif_neg (by omega), insertionShift]
  | succ j ih =>
    intro A
    rw [shellShift, dif_pos (by omega), insertionShift, Nat.add_sub_cancel, ih]

/-- `InsertionSort` is the last pass of `Shellsort`. -/
theorem insertionSort_eq_shellPass (hpos : 0 < 1) (A : IntArray) (N : Nat) :
    insertionSort A N = shellPass hpos N A := by
  have hround : insertionRound = shellRound hpos := by
    funext p A
    rw [insertionRound, shellRound, shellShift_one]
  rw [insertionSort, shellPass, hround]

/-- `Insertion_sort` permutes the array. -/
theorem insertionSort_rearranged (arr : IntArray) (n : Nat) :
    Rearranged n arr (insertionSort arr n) := by
  rw [insertionSort_eq_shellPass Nat.one_pos]
  exact shellPass_rearranged Nat.one_pos arr

/-- The passes permute the array. -/
theorem shellLoop_rearranged (N Increment : Nat) (A : IntArray) :
    Rearranged N A (shellLoop N Increment A) := by
  fun_induction shellLoop N Increment A with
  | case1 Increment A hpos ih => exact (shellPass_rearranged hpos A).trans ih
  | case2 Increment A hzero => exact Rearranged.refl N A

/-- The increment 1 comes last. -/
theorem shellLoop_ascending {N Increment : Nat} (hpos : 0 < Increment) (A : IntArray) :
    Ascending N (shellLoop N Increment A) := by
  fun_induction shellLoop N Increment A with
  | case1 Increment A hpos ih =>
    rcases Nat.eq_zero_or_pos (Increment / 2) with hzero | hhalf
    · -- Only 1 has the half 0, so this was the last pass.
      obtain rfl : Increment = 1 := by omega
      rw [shellLoop, dif_neg (by omega), ← insertionSort_eq_shellPass]
      exact insertionSort_ascending A N
    · exact ih hhalf
  | case2 Increment A hzero => exact absurd hpos hzero

/-- `Shellsort` sorts, because its last pass is an insertion sort. -/
theorem shellsort_ascending (A : IntArray) (N : Nat) : Ascending N (shellsort A N) := by
  rcases Nat.eq_zero_or_pos (N / 2) with hzero | hpos
  · -- An array of one element has no pass at all.
    rw [Ascending, pairwise_slice]
    intro i j _ hij hj
    omega
  · exact shellLoop_ascending hpos A

/-! ### Merging -/

section Merge

variable {A : IntArray} {m m' : MergeLocals}

/-- From `m` to `m'` these elements were written to `TmpArray`. -/
structure Wrote (m : MergeLocals) (xs : List Int) (m' : MergeLocals) : Prop where
  elements : slice m'.TmpArray m.TmpPos xs.length = xs
  frame : ∀ i, i < m.TmpPos → m'.TmpArray i = m.TmpArray i

/-- Nothing is written at first. -/
theorem Wrote.nil (m : MergeLocals) : Wrote m [] m := ⟨rfl, fun _ _ => rfl⟩

/-- A first element and the others. -/
theorem wrote_cons {m₁ : MergeLocals} {x : Int} {xs : List Int} (hpos : m₁.TmpPos = m.TmpPos + 1)
    (harray : m₁.TmpArray = Function.update m.TmpArray m.TmpPos x) (h : Wrote m₁ xs m') :
    Wrote m (x :: xs) m' where
  elements := by
    have hfirst := h.frame m.TmpPos (by omega)
    rw [harray, Function.update_self] at hfirst
    rw [List.length_cons, slice_succ, hfirst, ← hpos, h.elements]
  frame := by
    intro i hi
    rw [h.frame i (by omega), harray, Function.update_of_ne (by omega)]

/-- An element of the left half is written first. -/
theorem Wrote.takeLeft {xs : List Int} (h : Wrote (m.takeLeft A) xs m') :
    Wrote m (A m.Lpos :: xs) m' :=
  wrote_cons rfl rfl h

/-- An element of the right half is written first. -/
theorem Wrote.takeRight {xs : List Int} (h : Wrote (m.takeRight A) xs m') :
    Wrote m (A m.Rpos :: xs) m' :=
  wrote_cons rfl rfl h

/-- The elements from `pos` to the end of a half, the first of them apart. -/
theorem slice_half {pos last : Nat} (h : pos ≤ last) :
    slice A pos (last + 1 - pos) = A pos :: slice A (pos + 1) (last + 1 - (pos + 1)) := by
  rw [← slice_succ]
  congr 1
  omega

/-- A half that is used up. -/
theorem slice_half_nil {pos last : Nat} (h : ¬pos ≤ last) : slice A pos (last + 1 - pos) = [] := by
  rw [Nat.sub_eq_zero_of_le (by omega)]
  rfl

/-- The rest of the left half is written. -/
theorem mergeLeft_wrote (LeftEnd : Nat) (m : MergeLocals) :
    Wrote m (slice A m.Lpos (LeftEnd + 1 - m.Lpos)) (mergeLeft A LeftEnd m) ∧
      (mergeLeft A LeftEnd m).Rpos = m.Rpos := by
  fun_induction mergeLeft A LeftEnd m with
  | case1 m hle ih =>
    rw [slice_half hle]
    exact ⟨ih.1.takeLeft, ih.2⟩
  | case2 m hgt =>
    rw [slice_half_nil hgt]
    exact ⟨Wrote.nil m, rfl⟩

/-- The rest of the right half is written. -/
theorem mergeRight_wrote (RightEnd : Nat) (m : MergeLocals) :
    Wrote m (slice A m.Rpos (RightEnd + 1 - m.Rpos)) (mergeRight A RightEnd m) := by
  fun_induction mergeRight A RightEnd m with
  | case1 m hle ih =>
    rw [slice_half hle]
    exact ih.takeRight
  | case2 m hgt =>
    rw [slice_half_nil hgt]
    exact Wrote.nil m

/-- The three loops write what `List.merge` makes of the two halves. -/
theorem mergeBoth_wrote (LeftEnd RightEnd : Nat) (m : MergeLocals) :
    Wrote m
      (List.merge (slice A m.Lpos (LeftEnd + 1 - m.Lpos)) (slice A m.Rpos (RightEnd + 1 - m.Rpos)))
      (mergeRight A RightEnd (mergeLeft A LeftEnd (mergeBoth A LeftEnd RightEnd m))) := by
  fun_induction mergeBoth A LeftEnd RightEnd m with
  | case1 m hle hfirst ih =>
    have hmerge := ih.takeLeft
    rw [slice_half hle.1, slice_half hle.2, List.cons_merge_cons_pos _ _ _ (by simpa using hfirst)]
    rw [← slice_half hle.2]
    exact hmerge
  | case2 m hle hfirst ih =>
    have hmerge := ih.takeRight
    rw [slice_half hle.1, slice_half hle.2, List.cons_merge_cons_neg _ _ _ (by simpa using hfirst)]
    rw [← slice_half hle.1]
    exact hmerge
  | case3 m hend =>
    by_cases hleft : m.Lpos ≤ LeftEnd
    · -- The right half is used up, and its loop does nothing.
      have hright : ¬m.Rpos ≤ RightEnd := fun h => hend ⟨hleft, h⟩
      obtain ⟨hwrote, hRpos⟩ := mergeLeft_wrote (A := A) LeftEnd m
      rw [slice_half_nil hright, List.merge_right, mergeRight, dif_neg (by rw [hRpos]; exact hright)]
      exact hwrote
    · rw [slice_half_nil hleft, List.nil_merge, mergeLeft, dif_neg hleft]
      exact mergeRight_wrote RightEnd m

/-- `Merge` leaves the two halves merged, and nothing else changed. -/
theorem merge_spec (A TmpArray : IntArray) {Lpos Rpos RightEnd : Nat} (hpos : 0 < Rpos)
    (hleft : Lpos ≤ Rpos) (hright : Rpos ≤ RightEnd + 1) :
    slice (merge A TmpArray Lpos Rpos RightEnd).1 Lpos (RightEnd + 1 - Lpos)
        = List.merge (slice A Lpos (Rpos - Lpos)) (slice A Rpos (RightEnd + 1 - Rpos)) ∧
      ∀ i, i < Lpos ∨ RightEnd < i → (merge A TmpArray Lpos Rpos RightEnd).1 i = A i := by
  obtain ⟨m, hm⟩ : ∃ m, m = mergeRight A RightEnd (mergeLeft A (Rpos - 1)
      (mergeBoth A (Rpos - 1) RightEnd ⟨Lpos, Rpos, Lpos, TmpArray⟩)) := ⟨_, rfl⟩
  have hwrote := mergeBoth_wrote (A := A) (Rpos - 1) RightEnd ⟨Lpos, Rpos, Lpos, TmpArray⟩
  rw [← hm] at hwrote
  dsimp only at hwrote
  rw [Nat.sub_add_cancel hpos] at hwrote
  -- The last loop copies the segment back from its right end.
  have hcopy : ∀ i, forUp 0 (RightEnd + 1 - Lpos)
      (fun i _ _ A => Function.update A (RightEnd - i) (m.TmpArray (RightEnd - i))) A i
        = if RightEnd < i + (RightEnd + 1 - Lpos) ∧ i ≤ RightEnd then m.TmpArray i else A i := by
    refine forUp_induct (P := fun k (B : IntArray) =>
      ∀ i, B i = if RightEnd < i + k ∧ i ≤ RightEnd then m.TmpArray i else A i)
      (Nat.zero_le _) ?_ ?_
    · intro i
      rw [if_neg (by omega)]
    · intro k _ hk B hB i
      rw [Function.update_apply]
      split
      · rename_i hi
        rw [if_pos (by omega), hi]
      · rw [hB i]
        refine if_congr ?_ rfl rfl
        omega
  have hresult : (merge A TmpArray Lpos Rpos RightEnd).1 = forUp 0 (RightEnd + 1 - Lpos)
      (fun i _ _ A => Function.update A (RightEnd - i) (m.TmpArray (RightEnd - i))) A := by
    rw [hm]
    rfl
  rw [hresult]
  constructor
  · have hlength : (List.merge (slice A Lpos (Rpos - Lpos))
        (slice A Rpos (RightEnd + 1 - Rpos))).length = RightEnd + 1 - Lpos := by
      rw [List.length_merge, slice_length, slice_length]
      omega
    rw [← hwrote.elements, hlength]
    refine slice_congr fun i hi hik => ?_
    rw [hcopy i, if_pos (by omega)]
  · intro i hi
    rw [hcopy i, if_neg (by omega)]

end Merge

/-! ### The recursion of `MSort` -/

/-- The segment is sorted, and nothing outside it has changed. -/
structure SortedSegment (Left Right : Nat) (A B : IntArray) : Prop where
  sorted : (slice B Left (Right + 1 - Left)).Pairwise (· ≤ ·)
  perm : (slice B Left (Right + 1 - Left)).Perm (slice A Left (Right + 1 - Left))
  frame : ∀ i, i < Left ∨ Right < i → B i = A i

/-- A segment of at most one element. -/
theorem sortedSegment_of_le {Left Right : Nat} (h : Right ≤ Left) (A : IntArray) :
    SortedSegment Left Right A A where
  sorted := by
    rw [pairwise_slice]
    intro i j hi hij hj
    omega
  perm := List.Perm.refl _
  frame := fun _ _ => rfl

/-- The test of the merge is transitive. -/
theorem le_trans_bool (a b c : Int) (hab : decide (a ≤ b) = true) (hbc : decide (b ≤ c) = true) :
    decide (a ≤ c) = true := by
  rw [decide_eq_true_eq] at hab hbc ⊢
  exact Int.le_trans hab hbc

/-- The test of the merge is total. -/
theorem le_total_bool (a b : Int) : (decide (a ≤ b) || decide (b ≤ a)) = true := by
  rw [Bool.or_eq_true, decide_eq_true_eq, decide_eq_true_eq]
  exact Int.le_total a b

/-- A segment that is merged from two sorted parts. -/
theorem sorted_of_merge {a b : IntArray} {lo mid hi : Nat} (hlo : lo ≤ mid) (hhi : mid ≤ hi)
    (hleft : (slice a lo (mid - lo)).Pairwise (· ≤ ·))
    (hright : (slice a mid (hi - mid)).Pairwise (· ≤ ·))
    (h : slice b lo (hi - lo) = List.merge (slice a lo (mid - lo)) (slice a mid (hi - mid))) :
    (slice b lo (hi - lo)).Pairwise (· ≤ ·) ∧
      (slice b lo (hi - lo)).Perm (slice a lo (hi - lo)) := by
  rw [h, slice_split hlo hhi]
  refine ⟨?_, List.merge_perm_append _⟩
  have hsorted := List.pairwise_merge le_trans_bool le_total_bool (slice a lo (mid - lo))
    (slice a mid (hi - mid)) (by simpa using hleft) (by simpa using hright)
  simpa using hsorted

/-- Two sorted halves that are merged. -/
theorem SortedSegment.merge {Left Center Right : Nat} (hleft : Left ≤ Center)
    (hright : Center < Right) {A B C : IntArray} (TmpArray : IntArray)
    (hB : SortedSegment Left Center A B) (hC : SortedSegment (Center + 1) Right B C) :
    SortedSegment Left Right A (Sorting.merge C TmpArray Left (Center + 1) Right).1 := by
  obtain ⟨hmerge, hframe⟩ := merge_spec C TmpArray (Nat.succ_pos Center)
    (show Left ≤ Center + 1 by omega) (show Center + 1 ≤ Right + 1 by omega)
  -- The first half is not touched by the second call.
  have hfirst : slice C Left (Center + 1 - Left) = slice B Left (Center + 1 - Left) :=
    slice_congr fun i hi hik => hC.frame i (Or.inl (by omega))
  have hsecond : slice B (Center + 1) (Right + 1 - (Center + 1))
      = slice A (Center + 1) (Right + 1 - (Center + 1)) :=
    slice_congr fun i hi hik => hB.frame i (Or.inr (by omega))
  have hlo : Left ≤ Center + 1 := by omega
  have hhi : Center + 1 ≤ Right + 1 := by omega
  obtain ⟨hsorted, hperm⟩ := sorted_of_merge hlo hhi (by rw [hfirst]; exact hB.sorted) hC.sorted
    hmerge
  refine ⟨hsorted, hperm.trans ?_, fun i hi => ?_⟩
  · rw [slice_split hlo hhi, slice_split hlo hhi]
    refine List.Perm.append ?_ ?_
    · rw [hfirst]
      exact hB.perm
    · rw [← hsecond]
      exact hC.perm
  · rw [hframe i hi, hC.frame i (by omega), hB.frame i (by omega)]

/-- What a call of `MSort` that returns has done. -/
theorem mSort_sorted (A TmpArray : IntArray) (Left Right : Nat) :
    ∀ r, mSort A TmpArray Left Right = some r → SortedSegment Left Right A r.1 := by
  fun_induction mSort A TmpArray Left Right with
  | case1 A TmpArray Left Right hlt hsum Center ihLeft ihRight =>
    intro r h
    obtain ⟨⟨B, TmpB⟩, hB, h⟩ := Option.bind_eq_some_iff.mp h
    obtain ⟨⟨C, TmpC⟩, hC, h⟩ := Option.bind_eq_some_iff.mp h
    rw [← Option.some.inj h]
    exact SortedSegment.merge (by omega) (by omega) TmpC (ihLeft _ hB) (ihRight B TmpB _ hC)
  | case2 A TmpArray Left Right hlt hsum =>
    intro r h
    exact nomatch h
  | case3 A TmpArray Left Right hge =>
    intro r h
    rw [← Option.some.inj h]
    exact sortedSegment_of_le (by omega) A

/-- With indices up to `2 ^ 30` no sum overflows. -/
theorem mSort_isSome (A TmpArray : IntArray) (Left Right : Nat) (hright : Right ≤ 2 ^ 30) :
    (mSort A TmpArray Left Right).isSome := by
  fun_induction mSort A TmpArray Left Right with
  | case1 A TmpArray Left Right hlt hsum Center ihLeft ihRight =>
    obtain ⟨⟨B, TmpB⟩, hB⟩ := Option.isSome_iff_exists.mp (ihLeft (by omega))
    obtain ⟨⟨C, TmpC⟩, hC⟩ := Option.isSome_iff_exists.mp (ihRight B TmpB hright)
    rw [hB, Option.bind_eq_bind, Option.bind_some]
    dsimp only
    rw [hC]
    rfl
  | case2 A TmpArray Left Right hlt hsum =>
    rw [INT_MAX] at hsum
    omega
  | case3 A TmpArray Left Right hge => rfl

/-- Beyond that, the calls for the right halves come to a sum that does. -/
theorem mSort_overflow (A TmpArray : IntArray) (Left Right : Nat) (hlt : Left < Right)
    (hright : 2 ^ 30 < Right) : mSort A TmpArray Left Right = none := by
  fun_induction mSort A TmpArray Left Right with
  | case1 A TmpArray Left Right hlt' hsum Center ihLeft ihRight =>
    -- This sum is in range, so `Left` is below `2 ^ 30` and the right half has two elements.
    rw [INT_MAX] at hsum
    have hcenter : Center + 1 < Right := by omega
    cases hB : mSort A TmpArray Left Center with
    | none => rfl
    | some r =>
      obtain ⟨B, TmpB⟩ := r
      rw [Option.bind_eq_bind, Option.bind_some]
      dsimp only
      rw [ihRight B TmpB hcenter hright]
      rfl
  | case2 A TmpArray Left Right hlt' hsum => rfl
  | case3 A TmpArray Left Right hge => exact absurd hlt hge

/-! ### The three sorts -/

/-- `Mergesort` sorts arrays of this size. -/
theorem mergesort_of_le {N : Nat} (hpos : 1 ≤ N) (hN : N ≤ 2 ^ 30 + 1) (A TmpArray : IntArray) :
    ∃ B, mergesort (some TmpArray) A N = some B ∧ Ascending N B ∧ Rearranged N A B := by
  obtain ⟨r, hr⟩ := Option.isSome_iff_exists.mp
    (mSort_isSome A TmpArray 0 (N - 1) (show N - 1 ≤ 2 ^ 30 by omega))
  obtain ⟨hsorted, hperm, hframe⟩ := mSort_sorted A TmpArray 0 (N - 1) r hr
  have hlength : N - 1 + 1 - 0 = N := by omega
  rw [hlength] at hsorted hperm
  refine ⟨r.1, ?_, hsorted, hperm, fun i hi => hframe i (Or.inr (by omega))⟩
  rw [mergesort, hr]
  rfl

/-- The sorts are interchangeable exactly for arrays of at most `2 ^ 30 + 1` elements, and `MSort`
changes nothing outside its segment. -/
theorem sorts_interchangeable_iff (A TmpArray : IntArray) (N Left Right : Nat) (hpos : 1 ≤ N) :
    (Interchangeable A N ↔ N ≤ 2 ^ 30 + 1) ∧
      ∀ r, mSort A TmpArray Left Right = some r → ∀ i, i < Left ∨ Right < i → r.1 i = A i := by
  refine ⟨⟨?_, ?_⟩, fun r hr => (mSort_sorted A TmpArray Left Right r hr).frame⟩
  · -- One memory from `malloc` is enough: the overflow does not depend on it.
    rintro ⟨B, -, -, -, -, hmerge⟩
    by_contra hN
    have hsort := hmerge A
    rw [mergesort, mSort_overflow A A 0 (N - 1) (by omega) (by omega)] at hsort
    exact nomatch hsort
  · -- All three results are ascending permutations, of which there is one.
    intro hN
    have hsorted := insertionSort_ascending A N
    have hperm := insertionSort_rearranged A N
    refine ⟨insertionSort A N, hsorted, hperm, rfl, ?_, ?_⟩
    · exact (shellLoop_rearranged N (N / 2) A).eq hperm (shellsort_ascending A N) hsorted
    · intro TmpArray
      obtain ⟨B, hB, hsortedB, hpermB⟩ := mergesort_of_le hpos hN A TmpArray
      rw [hB, hpermB.eq hperm hsortedB hsorted]

/-- The array of `main`. -/
def mainArray : IntArray := fun i => [34, 8, 64, 51, 32, 21].getD i 0

/-- The array of `main`. -/
theorem sorts_interchangeable_iff_main : Interchangeable mainArray 6 :=
  (sorts_interchangeable_iff mainArray mainArray 6 0 5 (by decide)).1.mpr (by decide)

/-- `Mergesort` of `2 ^ 30 + 2` elements has no defined result. -/
theorem centre_overflows :
    ¬ ∀ (A : IntArray) (N : Nat), 1 ≤ N → N ≤ INT_MAX → Interchangeable A N := by
  intro hall
  obtain ⟨B, -, -, -, -, hmerge⟩ := hall (fun _ => 0) (2 ^ 30 + 2) (by decide) (by decide)
  have hsort := hmerge fun _ => 0
  rw [mergesort, mSort_overflow _ _ 0 (2 ^ 30 + 2 - 1) (by decide) (by decide)] at hsort
  exact nomatch hsort

end LearnGit.Proofs.Sorting
