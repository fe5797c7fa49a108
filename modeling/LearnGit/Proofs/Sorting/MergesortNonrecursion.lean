import LearnGit.Proofs.Sorting.SortProc
import LearnGit.Sorting.MergesortNonrecursion

/-!
# `LearnGit.Proofs.Sorting.MergesortNonrecursion`: the bottom-up merge sort

`mergesort_sorts`: up to `2 ^ 30` elements, every run is defined and leaves an ascending permutation
of the array.

One merge takes elements to `tmp` until one of the two runs is used up (`Merges`). What is left of
the left run is moved to the end, and `tmp` is copied in front of it, so that the segment is what
`List.merge` makes of the two runs (`mergeRuns_merged`). A pass doubles the width of the runs
(`Runs`), with the segments in front of `left_min` merged and those behind it as they were
(`Passing`).
-/

set_option autoImplicit false

namespace LearnGit.Proofs.Sorting.MergesortNonrecursion

open LearnGit.Lib
open LearnGit.Sorting (IntArray INT_MAX)
open LearnGit.Sorting.MergesortNonrecursion

/-- An index that is an `int` is itself. -/
theorem index_of_le {i : Nat} (h : i ≤ INT_MAX) : index i = some i := if_pos h

/-! ### The three loops of a merge -/

/-- The first elements of the two runs are in `tmp`, and what is left of them is the other part of
the merged list. -/
structure Merges (arr : IntArray) (left_max right_max left_min right_min next : Nat) (tmp : Buffer)
    (m : Merged) : Prop where
  left : left_min ≤ m.left_min ∧ m.left_min ≤ left_max
  right : right_min ≤ m.right_min ∧ m.right_min ≤ right_max
  count : m.next = next + (m.left_min - left_min) + (m.right_min - right_min)
  ended : m.left_min = left_max ∨ m.right_min = right_max
  size : m.tmp.size = tmp.size
  frame : ∀ j, j < next → m.tmp.cell j = tmp.cell j
  elements : slice m.tmp.cell next (m.next - next)
      ++ (slice arr m.left_min (left_max - m.left_min)
        ++ slice arr m.right_min (right_max - m.right_min))
    = List.merge (slice arr left_min (left_max - left_min))
      (slice arr right_min (right_max - right_min))

section
variable {arr : IntArray} {left_max right_max left_min right_min next : Nat} {tmp : Buffer}
  {m : Merged}

/-- The elements from `lo` to `hi`, the first of them apart. -/
theorem slice_cons {lo hi : Nat} (h : lo < hi) :
    slice arr lo (hi - lo) = arr lo :: slice arr (lo + 1) (hi - (lo + 1)) := by
  rw [← slice_succ]
  congr 1
  omega

/-- What a first element in `tmp` adds. -/
theorem slice_written {t : IntArray} {x : Int} {k : Nat} (hk : next < k)
    (hframe : ∀ j, j < next + 1 → t j = Function.update tmp.cell next x j) :
    slice t next (k - next) = x :: slice t (next + 1) (k - (next + 1)) := by
  rw [slice_cons hk, hframe next (Nat.lt_succ_self next), Function.update_self]

/-- Taking the first element of the left run goes on with the merge. -/
theorem Merges.takeLeft (hl : left_min < left_max) (hr : right_min < right_max)
    (hle : arr left_min ≤ arr right_min)
    (h : Merges arr left_max right_max (left_min + 1) right_min (next + 1)
      { tmp with cell := Function.update tmp.cell next (arr left_min) } m) :
    Merges arr left_max right_max left_min right_min next tmp m where
  left := ⟨by have := h.left; omega, h.left.2⟩
  right := h.right
  count := by
    have hleft := h.left
    have hcount := h.count
    omega
  ended := h.ended
  size := h.size
  frame := fun j hj => (h.frame j (by omega)).trans (Function.update_of_ne (by omega) _ _)
  elements := by
    have hcount := h.count
    rw [slice_written (by omega) h.frame, slice_cons hl, slice_cons hr,
      List.cons_merge_cons_pos _ _ _ (by simpa using hle), ← slice_cons hr, ← h.elements]
    rfl

/-- Taking the first element of the right run goes on with the merge. -/
theorem Merges.takeRight (hl : left_min < left_max) (hr : right_min < right_max)
    (hgt : arr right_min < arr left_min)
    (h : Merges arr left_max right_max left_min (right_min + 1) (next + 1)
      { tmp with cell := Function.update tmp.cell next (arr right_min) } m) :
    Merges arr left_max right_max left_min right_min next tmp m where
  left := h.left
  right := ⟨by have := h.right; omega, h.right.2⟩
  count := by
    have hright := h.right
    have hcount := h.count
    omega
  ended := h.ended
  size := h.size
  frame := fun j hj => (h.frame j (by omega)).trans (Function.update_of_ne (by omega) _ _)
  elements := by
    have hcount := h.count
    rw [slice_written (by omega) h.frame, slice_cons hl, slice_cons hr,
      List.cons_merge_cons_neg _ _ _ (by simpa using hgt), ← slice_cons hl, ← h.elements]
    rfl

/-- Where a run is used up, nothing is taken any more. -/
theorem merges_end (hl : left_min ≤ left_max) (hr : right_min ≤ right_max)
    (hend : ¬(left_min < left_max ∧ right_min < right_max)) :
    Merges arr left_max right_max left_min right_min next tmp
      ⟨left_min, right_min, next, tmp⟩ where
  left := ⟨Nat.le_refl _, hl⟩
  right := ⟨Nat.le_refl _, hr⟩
  count := by dsimp only; omega
  ended := by dsimp only; omega
  size := rfl
  frame := fun _ _ => rfl
  elements := by
    dsimp only
    rw [Nat.sub_self, slice_zero, List.nil_append]
    rcases (show left_min = left_max ∨ right_min = right_max by omega) with rfl | rfl
    · rw [Nat.sub_self, slice_zero, List.nil_append, List.nil_merge]
    · rw [Nat.sub_self, slice_zero, List.append_nil, List.merge_right]

end

/-- The loop over both runs returns, and what it took is merged. -/
theorem mergeBoth_merges {arr : Buffer} {left_max right_max : Nat} (hleft : left_max ≤ arr.size)
    (hright : right_max ≤ arr.size) (hsize : arr.size ≤ INT_MAX) (left_min right_min next : Nat)
    (tmp : Buffer) (hl : left_min ≤ left_max) (hr : right_min ≤ right_max)
    (hnext : next + (left_max - left_min) + (right_max - right_min) ≤ tmp.size)
    (htmp : tmp.size ≤ INT_MAX) :
    ∃ m, mergeBoth arr left_max right_max left_min right_min next tmp = some m ∧
      Merges arr.cell left_max right_max left_min right_min next tmp m := by
  fun_induction mergeBoth arr left_max right_max left_min right_min next tmp with
  | case1 left_min right_min next tmp hboth ihRight ihLeft =>
    rw [Cells.read_of_lt (by omega), Option.bind_eq_bind, Option.bind_some,
      Cells.read_of_lt (by omega), Option.bind_eq_bind, Option.bind_some, index_of_le (by omega),
      Option.bind_eq_bind, Option.bind_some]
    by_cases hgt : arr.cell left_min > arr.cell right_min
    · obtain ⟨m, hm, hmerges⟩ := ihRight
        { tmp with cell := Function.update tmp.cell next (arr.cell right_min) } hl (by omega)
        (show _ ≤ tmp.size by omega) htmp
      rw [if_pos hgt, index_of_le (by omega), Option.bind_some, Cells.write_of_lt (by omega),
        Option.bind_some, hm]
      exact ⟨m, rfl, hmerges.takeRight hboth.1 hboth.2 hgt⟩
    · obtain ⟨m, hm, hmerges⟩ := ihLeft
        { tmp with cell := Function.update tmp.cell next (arr.cell left_min) } (by omega) hr
        (show _ ≤ tmp.size by omega) htmp
      rw [if_neg hgt, index_of_le (by omega), Option.bind_some, Cells.write_of_lt (by omega),
        Option.bind_some, hm]
      exact ⟨m, rfl, hmerges.takeLeft hboth.1 hboth.2 (Int.not_lt.mp hgt)⟩
  | case2 left_min right_min next tmp hend => exact ⟨_, rfl, merges_end hl hr hend⟩

/-- The element in front of an index. -/
theorem read_pred {c : Buffer} {i : Nat} (hpos : 0 < i) (hi : i ≤ c.size) :
    c.read ((i : Int) - 1) = some (c.cell (i - 1)) := by
  rw [show (i : Int) - 1 = ((i - 1 : Nat) : Int) by omega]
  exact Cells.read_of_lt (by omega)

/-- A store at the index before a positive one. -/
theorem write_pred {c : Buffer} {i : Nat} (hpos : 0 < i) (hi : i ≤ c.size) (x : Int) :
    c.write ((i : Int) - 1) x = some { c with cell := Function.update c.cell (i - 1) x } := by
  rw [show (i : Int) - 1 = ((i - 1 : Nat) : Int) by omega]
  exact Cells.write_of_lt (by omega)

/-- The elements from `lo` to `hi` are those of `source`, and the others are as they were. -/
structure Moved (lo hi : Nat) (source : Nat → Int) (arr arr' : Buffer) : Prop where
  size : arr'.size = arr.size
  inside : ∀ j, lo ≤ j → j < hi → arr'.cell j = source j
  outside : ∀ j, j < lo ∨ hi ≤ j → arr'.cell j = arr.cell j

/-- What the loop leaves of the left run is moved to the end of the segment. -/
theorem shiftLeft_moved (left_min left_max right_min : Nat) (arr : Buffer)
    (hleft : left_min ≤ left_max) (hright : left_max ≤ right_min) (hsize : right_min ≤ arr.size) :
    ∃ arr', shiftLeft left_min left_max right_min arr
        = some (right_min - (left_max - left_min), arr') ∧
      Moved (right_min - (left_max - left_min)) right_min
        (fun j => arr.cell (j - (right_min - left_max))) arr arr' := by
  fun_induction shiftLeft left_min left_max right_min arr with
  | case1 left_max right_min arr hlt ih =>
    obtain ⟨arr', hrun, hmoved⟩ := ih
      { arr with cell := Function.update arr.cell (right_min - 1) (arr.cell (left_max - 1)) }
      (by omega) (by omega) (show right_min - 1 ≤ arr.size by omega)
    rw [show right_min - 1 - (left_max - 1 - left_min) = right_min - (left_max - left_min) by
      omega] at hrun hmoved
    rw [read_pred (by omega) (by omega), Option.bind_eq_bind, Option.bind_some,
      write_pred (by omega) hsize, Option.bind_eq_bind, Option.bind_some, hrun]
    refine ⟨arr', rfl, hmoved.size, fun j hlo hhi => ?_, fun j hj => ?_⟩
    · rcases Nat.lt_or_ge j (right_min - 1) with hlt' | hge
      · -- The elements that are still to be moved are not written over.
        refine (hmoved.inside j hlo hlt').trans ((Function.update_of_ne (by omega) _ _).trans ?_)
        congr 1
        omega
      · refine (hmoved.outside j (.inr hge)).trans ?_
        obtain rfl : j = right_min - 1 := by omega
        refine (Function.update_self _ _ _).trans ?_
        congr 1
        omega
    · exact (hmoved.outside j (by omega)).trans (Function.update_of_ne (by omega) _ _)
  | case2 left_max right_min arr hge =>
    rw [show right_min - (left_max - left_min) = right_min by omega]
    exact ⟨arr, rfl, rfl, fun j hlo hhi => by omega, fun _ _ => rfl⟩

/-- The loop copies the first elements of `tmp` back, up to where the right run's rest begins. -/
theorem copyBack_moved {tmp : Buffer} (next right_min : Nat) (arr : Buffer)
    (hnext : next ≤ tmp.size) (hle : next ≤ right_min) (hsize : right_min ≤ arr.size) :
    ∃ arr', copyBack tmp next right_min arr = some arr' ∧
      Moved (right_min - next) right_min (fun j => tmp.cell (j - (right_min - next))) arr arr' := by
  induction next generalizing right_min arr with
  | zero => exact ⟨arr, rfl, rfl, fun j hlo hhi => by omega, fun _ _ => rfl⟩
  | succ next ih =>
    obtain ⟨arr', hrun, hmoved⟩ := ih (right_min - 1)
      { arr with cell := Function.update arr.cell (right_min - 1) (tmp.cell next) }
      (by omega) (by omega) (show right_min - 1 ≤ arr.size by omega)
    rw [show right_min - 1 - next = right_min - (next + 1) by omega] at hmoved
    rw [copyBack, Cells.read_of_lt (by omega), Option.bind_eq_bind, Option.bind_some,
      write_pred (by omega) hsize, Option.bind_eq_bind, Option.bind_some, hrun]
    refine ⟨arr', rfl, hmoved.size, fun j hlo hhi => ?_, fun j hj => ?_⟩
    · rcases Nat.lt_or_ge j (right_min - 1) with hlt | hge
      · exact hmoved.inside j hlo hlt
      · refine (hmoved.outside j (.inr hge)).trans ?_
        obtain rfl : j = right_min - 1 := by omega
        refine (Function.update_self _ _ _).trans ?_
        congr 1
        omega
    · exact (hmoved.outside j (by omega)).trans (Function.update_of_ne (by omega) _ _)

/-- The elements of a segment, where they are those of another array. -/
theorem slice_source {a b : IntArray} (source : Nat → Int) {lo lo' k : Nat}
    (h : ∀ j, lo ≤ j → j < lo + k → a j = source j)
    (hsource : ∀ j, j < k → source (lo + j) = b (lo' + j)) : slice a lo k = slice b lo' k := by
  refine List.ext_getElem (by simp) fun j hj _ => ?_
  rw [slice_length] at hj
  rw [getElem_slice, getElem_slice, h (lo + j) (by omega) (by omega), hsource j hj]

/-- The three parts of the segment, one behind the other. -/
theorem segment_elements {left_min left_max right_max : Nat} {tmp arr arr₁ arr₂ : Buffer}
    {m : Merged}
    (hmerges : Merges arr.cell left_max right_max left_min left_max 0 tmp m)
    (hshifted : Moved (m.right_min - (left_max - m.left_min)) m.right_min
      (fun j => arr.cell (j - (m.right_min - left_max))) arr arr₁)
    (hcopied : Moved left_min (m.right_min - (left_max - m.left_min))
      (fun j => m.tmp.cell (j - left_min)) arr₁ arr₂) :
    slice arr₂.cell left_min (right_max - left_min)
      = List.merge (slice arr.cell left_min (left_max - left_min))
        (slice arr.cell left_max (right_max - left_max)) := by
  obtain ⟨hleft, hright, hcount, hended, -, -, helements⟩ := hmerges
  rw [Nat.sub_zero] at helements
  rw [← helements, show right_max - left_min
    = m.next + ((left_max - m.left_min) + (right_max - m.right_min)) by omega, slice_add, slice_add]
  refine congrArg₂ (· ++ ·) ?_ (congrArg₂ (· ++ ·) ?_ ?_)
  · -- What was taken to `tmp`.
    refine slice_source _ (fun j hlo hhi => hcopied.inside j hlo (by omega)) fun j hj => ?_
    congr 1
    omega
  · -- What is left of the left run.
    refine slice_source (fun j => arr.cell (j - (m.right_min - left_max))) (fun j hlo hhi => ?_)
      fun j hj => ?_
    · rw [hcopied.outside j (by omega)]
      exact hshifted.inside j (by omega) (by omega)
    · congr 1
      omega
  · -- What is left of the right run has not been moved.
    refine slice_source arr.cell (fun j hlo hhi => ?_) fun j hj => ?_
    · rw [hcopied.outside j (by omega)]
      exact hshifted.outside j (by omega)
    · congr 1
      omega

/-- A merge of two runs. -/
theorem mergeRuns_merged {n i left_min : Nat} {s : Arrays} (harr : s.arr.size = n)
    (htmp : s.tmp.size = n) (hn : n ≤ 2 ^ 30) (hlt : left_min + i < n) :
    ∃ s', mergeRuns n i left_min s = some s' ∧ s'.arr.size = n ∧ s'.tmp.size = n ∧
      slice s'.arr.cell left_min (rightMax n i left_min - left_min)
        = List.merge (slice s.arr.cell left_min i)
          (slice s.arr.cell (left_min + i) (rightMax n i left_min - (left_min + i))) ∧
      ∀ j, j < left_min ∨ rightMax n i left_min ≤ j → s'.arr.cell j = s.arr.cell j := by
  obtain ⟨right_max, hmax⟩ : ∃ right_max, right_max = rightMax n i left_min := ⟨_, rfl⟩
  have hbound : left_min + i ≤ right_max ∧ right_max ≤ n := by
    rw [hmax, rightMax]
    split <;> omega
  rw [mergeRuns, ← hmax]
  obtain ⟨m, hm, hmerges⟩ := mergeBoth_merges (show left_min + i ≤ s.arr.size by omega)
    (show right_max ≤ s.arr.size by omega) (by rw [INT_MAX]; omega) left_min (left_min + i) 0 s.tmp
    (by omega) hbound.1 (by omega) (by rw [INT_MAX]; omega)
  have hleft := hmerges.left
  have hright := hmerges.right
  have hcount := hmerges.count
  have hended := hmerges.ended
  have hsize := hmerges.size
  obtain ⟨arr₁, hshift, hshifted⟩ := shiftLeft_moved m.left_min (left_min + i) m.right_min s.arr
    hleft.2 hright.1 (by omega)
  obtain ⟨arr₂, hcopy, hcopied⟩ := copyBack_moved m.next
    (m.right_min - (left_min + i - m.left_min)) arr₁ (show m.next ≤ m.tmp.size by omega) (by omega)
    (by rw [hshifted.size]; omega)
  -- The copy ends where the segment begins.
  have hstart : m.right_min - (left_min + i - m.left_min) - m.next = left_min := by omega
  rw [hstart] at hcopied
  have helements := segment_elements hmerges hshifted hcopied
  rw [Nat.add_sub_cancel_left] at helements
  refine ⟨⟨arr₂, m.tmp⟩, ?_, (hcopied.size.trans hshifted.size).trans harr, hsize.trans htmp,
    helements, fun j hj => ?_⟩
  · rw [index_of_le (by rw [INT_MAX]; omega), Option.bind_eq_bind, Option.bind_some,
      index_of_le (by rw [INT_MAX]; omega), Option.bind_eq_bind, Option.bind_some, hm,
      Option.bind_eq_bind, Option.bind_some, hshift, Option.bind_eq_bind, Option.bind_some]
    dsimp only
    rw [hcopy]
    rfl
  · rw [hcopied.outside j (by omega)]
    exact hshifted.outside j (by omega)

/-! ### Runs -/

/-- The elements from `lo` to `hi` are in ascending order. -/
def SortedOn (lo hi : Nat) (a : IntArray) : Prop :=
  ∀ j k, lo ≤ j → j < k → k < hi → a j ≤ a k

/-- The runs of this width are in ascending order, the last one up to the end of the array. -/
def Runs (n width : Nat) (a : IntArray) : Prop :=
  ∀ p, width ∣ p → SortedOn p (min (p + width) n) a

section
variable {n lo mid hi : Nat} {a b : IntArray}

/-- Whether a range is sorted depends on its elements alone. -/
theorem SortedOn.congr (h : SortedOn lo hi a) (heq : ∀ j, lo ≤ j → j < hi → b j = a j) :
    SortedOn lo hi b := by
  intro j k hj hjk hk
  rw [heq j hj (by omega), heq k (by omega) hk]
  exact h j k hj hjk hk

/-- An empty range is sorted. -/
theorem sortedOn_empty (h : hi ≤ lo) (a : IntArray) : SortedOn lo hi a := by
  intro j k hj hjk hk
  omega

/-- A sorted range is a sorted list. -/
theorem SortedOn.pairwise (h : SortedOn lo hi a) : (slice a lo (hi - lo)).Pairwise (· ≤ ·) := by
  rw [pairwise_slice]
  intro j k hj hjk hk
  exact h j k hj hjk (by omega)

/-- A range whose list is sorted is sorted. -/
theorem sortedOn_of_pairwise (h : (slice a lo (hi - lo)).Pairwise (· ≤ ·)) : SortedOn lo hi a := by
  intro j k hj hjk hk
  exact pairwise_slice.mp h j k hj hjk (by omega)

/-- The segment of two sorted runs that are merged. -/
theorem sortedOn_merged (hlo : lo ≤ mid) (hhi : mid ≤ hi) (hleft : SortedOn lo mid a)
    (hright : SortedOn mid hi a)
    (h : slice b lo (hi - lo) = List.merge (slice a lo (mid - lo)) (slice a mid (hi - mid))) :
    SortedOn lo hi b ∧ (slice b lo (hi - lo)).Perm (slice a lo (hi - lo)) := by
  obtain ⟨hsorted, hperm⟩ := sorted_of_merge hlo hhi hleft.pairwise hright.pairwise h
  exact ⟨sortedOn_of_pairwise hsorted, hperm⟩

/-- A segment is permuted. -/
theorem rearranged_segment (hlo : lo ≤ hi) (hhi : hi ≤ n)
    (hperm : (slice b lo (hi - lo)).Perm (slice a lo (hi - lo)))
    (hframe : ∀ j, j < lo ∨ hi ≤ j → b j = a j) : Rearranged n a b := by
  refine ⟨?_, fun j hj => hframe j (.inr (by omega))⟩
  -- In front of the segment and behind it the elements are the same.
  have hsplit : ∀ c : IntArray, slice c 0 n
      = slice c 0 lo ++ (slice c lo (hi - lo) ++ slice c hi (n - hi)) := by
    intro c
    have hfirst : slice c 0 (n - 0) = slice c 0 (lo - 0) ++ slice c lo (n - lo) :=
      slice_split (Nat.zero_le lo) (by omega)
    rwa [slice_split hlo hhi] at hfirst
  rw [hsplit, hsplit]
  refine List.Perm.append (List.Perm.of_eq ?_) (List.Perm.append hperm (List.Perm.of_eq ?_))
  · exact slice_congr fun j hj hjk => hframe j (.inl (by omega))
  · exact slice_congr fun j hj hjk => hframe j (.inr hj)

end

/-! ### A pass -/

/-- Two multiples are a width apart. -/
theorem add_le_of_dvd {w p q : Nat} (hp : w ∣ p) (hq : w ∣ q) (h : p < q) : p + w ≤ q := by
  have hle := Nat.le_of_dvd (by omega) (Nat.dvd_sub hq hp)
  omega

/-- The arrays in the pass of the width `i`, before the round of `left_min`: the runs in front of it
have twice the width, and those behind it the width. -/
structure Passing (n i left_min : Nat) (arr : IntArray) (s : Arrays) : Prop where
  arrSize : s.arr.size = n
  tmpSize : s.tmp.size = n
  place : i * 2 ∣ left_min ∨ left_min = n
  merged : ∀ p, i * 2 ∣ p → p < left_min → SortedOn p (min (p + i * 2) n) s.arr.cell
  rest : ∀ p, i ∣ p → left_min ≤ p → SortedOn p (min (p + i) n) s.arr.cell
  rearranged : Rearranged n arr s.arr.cell

/-- The right run ends where it has the width, or where the array ends. -/
theorem rightMax_eq (n i left_min : Nat) : rightMax n i left_min = min (left_min + i * 2) n := by
  rw [rightMax]
  split <;> omega

section
variable {n i left_min : Nat} {arr : IntArray} {s : Arrays}

/-- A round merges two runs and goes on with the pass. -/
theorem Passing.next (hpos : 0 < i) (hn : n ≤ 2 ^ 30) (hlt : left_min < n - i)
    (h : Passing n i left_min arr s) :
    ∃ s', mergeRuns n i left_min s = some s' ∧ Passing n i (rightMax n i left_min) arr s' := by
  obtain ⟨s', hrun, harr, htmp, helements, hframe⟩ :=
    mergeRuns_merged h.arrSize h.tmpSize hn (show left_min + i < n by omega)
  have hplace : i * 2 ∣ left_min := h.place.resolve_right (by omega)
  have hdvd : i ∣ left_min := (Nat.dvd_mul_right i 2).trans hplace
  rw [rightMax_eq] at helements hframe ⊢
  have hleft := h.rest left_min hdvd (Nat.le_refl _)
  have hright := h.rest (left_min + i) (hdvd.add (dvd_refl i)) (by omega)
  rw [Nat.min_eq_left (show left_min + i ≤ n by omega)] at hleft
  rw [show left_min + i + i = left_min + i * 2 by omega] at hright
  obtain ⟨hsorted, hperm⟩ := sortedOn_merged (show left_min ≤ left_min + i by omega)
    (show left_min + i ≤ min (left_min + i * 2) n by omega) hleft hright
    (by rw [Nat.add_sub_cancel_left]; exact helements)
  refine ⟨s', hrun, harr, htmp, ?_, fun p hp hlo => ?_, fun p hp hlo => ?_, ?_⟩
  · -- The next segment begins at a multiple of its width, or the array is at its end.
    rcases Nat.le_total (left_min + i * 2) n with hle | hge
    · rw [Nat.min_eq_left hle]
      exact .inl (hplace.add (dvd_refl _))
    · exact .inr (Nat.min_eq_right hge)
  · rcases Nat.lt_trichotomy p left_min with hbefore | rfl | hafter
    · have hgap := add_le_of_dvd hp hplace hbefore
      exact (h.merged p hp hbefore).congr fun j _ hj => hframe j (.inl (by omega))
    · exact hsorted
    · have hgap := add_le_of_dvd hplace hp hafter
      omega
  · exact (h.rest p hp (by omega)).congr fun j hj _ => hframe j (.inr (by omega))
  · exact h.rearranged.trans (rearranged_segment (by omega) (Nat.min_le_right _ _) hperm hframe)

/-- Behind the pass the runs have twice the width. -/
theorem Passing.runs (hge : ¬left_min < n - i) (h : Passing n i left_min arr s) :
    Runs n (i * 2) s.arr.cell := by
  intro p hp
  rcases Nat.lt_trichotomy p left_min with hbefore | rfl | hafter
  · exact h.merged p hp hbefore
  · -- There is no more than one run of the width `i` left.
    have hlast := h.rest p ((Nat.dvd_mul_right i 2).trans hp) (Nat.le_refl p)
    intro j k hj hjk hk
    exact hlast j k hj hjk (by omega)
  · rcases h.place with hplace | rfl
    · have hgap := add_le_of_dvd hplace hp hafter
      exact sortedOn_empty (by omega) _
    · exact sortedOn_empty (by omega) _

/-- A pass leaves runs of twice the width, and moves elements only. -/
theorem mergePass_runs (hpos : 0 < i) (hn : n ≤ 2 ^ 30) (left_min : Nat) (s : Arrays)
    (h : Passing n i left_min arr s) : ∃ s', mergePass n hpos left_min s = some s' ∧
      s'.arr.size = n ∧ s'.tmp.size = n ∧ Runs n (i * 2) s'.arr.cell ∧
      Rearranged n arr s'.arr.cell := by
  fun_induction mergePass n hpos left_min s with
  | case1 left_min s hlt ih =>
    obtain ⟨s', hrun, hnext⟩ := h.next hpos hn hlt
    rw [hrun, Option.bind_eq_bind, Option.bind_some]
    exact ih s' hnext
  | case2 left_min s hge =>
    exact ⟨s, rfl, h.arrSize, h.tmpSize, h.runs hge, h.rearranged⟩

/-- The pass starts with runs of its width. -/
theorem passing_start (harr : s.arr.size = n) (htmp : s.tmp.size = n) (hruns : Runs n i s.arr.cell)
    (hperm : Rearranged n arr s.arr.cell) : Passing n i 0 arr s where
  arrSize := harr
  tmpSize := htmp
  place := .inl (dvd_zero _)
  merged := fun p _ hp => absurd hp (Nat.not_lt_zero p)
  rest := fun p hp _ => hruns p hp
  rearranged := hperm

end

/-! ### The sort -/

/-- The passes from runs of any width sort the array. -/
theorem mergeLoop_sorts {n : Nat} {arr : IntArray} (hn : n ≤ 2 ^ 30) (i : Nat) (s : Arrays)
    (hpos : 0 < i) (harr : s.arr.size = n) (htmp : s.tmp.size = n) (hruns : Runs n i s.arr.cell)
    (hperm : Rearranged n arr s.arr.cell) :
    ∃ s', mergeLoop n i s = some s' ∧ SortedOn 0 n s'.arr.cell ∧
      Rearranged n arr s'.arr.cell := by
  fun_induction mergeLoop n i s with
  | case1 i s hlt ih =>
    obtain ⟨s', hrun, harr', htmp', hruns', hperm'⟩ :=
      mergePass_runs hlt.1 hn 0 s (passing_start harr htmp hruns hperm)
    rw [hrun, Option.bind_eq_bind, Option.bind_some, index_of_le (by rw [INT_MAX]; omega),
      Option.bind_eq_bind, Option.bind_some]
    exact ih s' (by omega) harr' htmp' hruns' hperm'
  | case2 i s hge =>
    refine ⟨s, rfl, ?_, hperm⟩
    have hwhole := hruns 0 (dvd_zero i)
    rwa [Nat.zero_add, Nat.min_eq_right (by omega)] at hwhole

/-- The array is left in ascending order, as a permutation of what it was. -/
theorem mergesort_sorts {n : Nat} (hn : n ≤ 2 ^ 30) (arr tmp : IntArray) :
    ∃ B, mergesort (some tmp) arr n = some B ∧ Ascending n B ∧ Rearranged n arr B := by
  have hruns : Runs n 1 arr := fun p _ j k hj hjk hk => by omega
  obtain ⟨s, hrun, hsorted, hperm⟩ := mergeLoop_sorts hn 1 ⟨⟨n, arr⟩, ⟨n, tmp⟩⟩ Nat.one_pos rfl rfl
    hruns (Rearranged.refl n arr)
  refine ⟨s.arr.cell, ?_, hsorted.pairwise, hperm⟩
  rw [mergesort, Option.bind_eq_bind, Option.bind_some, hrun]
  rfl

/-- The array of `main`. -/
def mainArray : IntArray := fun i => [8, 9, 3, 4, 5, 28, 1].getD i 0

/-- The seven numbers of `main` are sorted. -/
theorem mergesort_sorts_main : ∃ B, mergesort (some fun _ => 0) mainArray 7 = some B ∧
    Ascending 7 B ∧ Rearranged 7 mainArray B :=
  mergesort_sorts (by decide) mainArray fun _ => 0

end LearnGit.Proofs.Sorting.MergesortNonrecursion
