import Mathlib.Algebra.BigOperators.Intervals
import Mathlib.Data.Set.Finite.Lemmas
import Mathlib.Order.Bounds.Basic
import LearnGit.MaxSubsequenceSum

/-!
# `LearnGit.Proofs.MaxSubsequenceSum`: the three programs agree

`maxSubsequenceSum_agree`: each of the three programs returns the greater of 0 and the greatest sum
of a block. A running maximum is the greatest of 0 and the sums that were tried so far
(`IsGreatest (insert 0 S) m`), and a round of a loop adds one sum to `S` (`isGreatest_round`).

The two programs with loops try the blocks in the same order (`Tried`). The third one needs the
blocks that begin in the left half and end in the right one: they are the sum of a block that ends
at the centre and one that begins behind it.
-/

set_option autoImplicit false

namespace LearnGit.Proofs.MaxSubsequenceSum

open LearnGit.Lib
open LearnGit.MaxSubsequenceSum

variable {arr : Nat → Int} {n : Nat}

/-- The sum of the block from `i` to `j - 1`. -/
def blockSum (arr : Nat → Int) (i j : Nat) : Int := ∑ k ∈ Finset.Ico i j, arr k

/-- The sums of the blocks between `lo` and `hi - 1`, of which none is empty. -/
def blockSums (arr : Nat → Int) (lo hi : Nat) : Set Int :=
  {s | ∃ i j, lo ≤ i ∧ i < j ∧ j ≤ hi ∧ s = blockSum arr i j}

/-- An empty block has the sum 0. -/
@[simp] theorem blockSum_self (i : Nat) : blockSum arr i i = 0 := by
  simp [blockSum]

/-- A block with an element more has that element more in its sum. -/
theorem blockSum_succ {i j : Nat} (h : i ≤ j) : blockSum arr i (j + 1) = blockSum arr i j + arr j :=
  Finset.sum_Ico_succ_top h arr

/-- Two blocks side by side sum to the block of both. -/
theorem blockSum_add {i j k : Nat} (hij : i ≤ j) (hjk : j ≤ k) :
    blockSum arr i j + blockSum arr j k = blockSum arr i k :=
  Finset.sum_Ico_consecutive arr hij hjk

/-- One more sum is tried. -/
theorem isGreatest_round {S : Set Int} {m : Int} (h : IsGreatest (insert 0 S) m) (x : Int) :
    IsGreatest (insert 0 (insert x S)) (if x > m then x else m) := by
  have hmax : (if x > m then x else m) = max x m := by
    rw [max_def]
    split <;> split <;> omega
  rw [hmax, Set.insert_comm]
  exact h.insert x

/-! ### The loops -/

/-- The sums that were tried before the block from `i` to `j`, the blocks in the order of their
first and then of their last element. -/
def Tried (arr : Nat → Int) (n i j : Nat) : Set Int :=
  {s | ∃ a b, a < b ∧ b ≤ n ∧ (a < i ∨ a = i ∧ b ≤ j) ∧ s = blockSum arr a b}

/-- At first nothing was tried. -/
theorem tried_zero : Tried arr n 0 0 = ∅ := by
  refine Set.eq_empty_of_forall_notMem ?_
  rintro s ⟨a, b, hab, -, hlex, -⟩
  omega

/-- The block from `i` to `j` is tried next. -/
theorem tried_succ {i j : Nat} (hij : i ≤ j) (hj : j < n) :
    Tried arr n i (j + 1) = insert (blockSum arr i (j + 1)) (Tried arr n i j) := by
  ext s
  constructor
  · rintro ⟨a, b, hab, hb, hlex, rfl⟩
    by_cases hlast : a = i ∧ b = j + 1
    · rw [hlast.1, hlast.2]
      exact Set.mem_insert _ _
    · exact Set.mem_insert_of_mem _ ⟨a, b, hab, hb, by omega, rfl⟩
  · rintro (rfl | ⟨a, b, hab, hb, hlex, rfl⟩)
    · exact ⟨i, j + 1, by omega, by omega, by omega, rfl⟩
    · exact ⟨a, b, hab, hb, by omega, rfl⟩

/-- Behind the inner loop all blocks from `i` on were tried. -/
theorem tried_end (i : Nat) : Tried arr n i n = Tried arr n (i + 1) (i + 1) := by
  ext s
  constructor
  · rintro ⟨a, b, hab, hb, hlex, rfl⟩
    exact ⟨a, b, hab, hb, by omega, rfl⟩
  · rintro ⟨a, b, hab, hb, hlex, rfl⟩
    exact ⟨a, b, hab, hb, by omega, rfl⟩

/-- At the end every block was tried. -/
theorem tried_all : Tried arr n n n = blockSums arr 0 n := by
  ext s
  constructor
  · rintro ⟨a, b, hab, hb, -, rfl⟩
    exact ⟨a, b, Nat.zero_le a, hab, hb, rfl⟩
  · rintro ⟨a, b, -, hab, hb, rfl⟩
    exact ⟨a, b, hab, hb, by omega, rfl⟩

/-- An outer loop whose rounds try all blocks from `i` on. -/
theorem forUp_tried {body : Nat → Int → Int}
    (hbody : ∀ i < n, ∀ m, IsGreatest (insert 0 (Tried arr n i i)) m →
      IsGreatest (insert 0 (Tried arr n i n)) (body i m)) :
    IsGreatest (insert 0 (blockSums arr 0 n)) (forUp 0 n (fun i _ _ m => body i m) 0) := by
  rw [← tried_all]
  refine forUp_induct (P := fun i m => IsGreatest (insert 0 (Tried arr n i i)) m)
    (Nat.zero_le n) ?_ ?_
  · rw [tried_zero, insert_empty_eq]
    exact isGreatest_singleton
  · intro i _ hi m hm
    rw [← tried_end]
    exact hbody i hi m hm

/-- The first algorithm returns the greatest sum of a block, or 0. -/
theorem maxSubsequenceSum01_greatest :
    IsGreatest (insert 0 (blockSums arr 0 n)) (maxSubsequenceSum01 arr n) := by
  refine forUp_tried fun i hi m hm => ?_
  refine forUp_induct (P := fun j m => IsGreatest (insert 0 (Tried arr n i j)) m)
    (Nat.le_of_lt hi) hm ?_
  intro j hij hj m hm
  have hsum : forUp i (j + 1) (fun k _ _ ThisSum => ThisSum + arr k) 0
      = blockSum arr i (j + 1) := by
    refine forUp_induct (P := fun k s => s = blockSum arr i k) (Nat.le_succ_of_le hij)
      (blockSum_self i).symm ?_
    intro k hik _ s hs
    rw [blockSum_succ hik, hs]
  rw [tried_succ hij hj]
  dsimp only
  rw [hsum]
  exact isGreatest_round hm _

/-- The second algorithm returns the greatest sum of a block, or 0. -/
theorem maxSubsequenceSum02_greatest :
    IsGreatest (insert 0 (blockSums arr 0 n)) (maxSubsequenceSum02 arr n) := by
  refine forUp_tried fun i hi m hm => ?_
  refine (forUp_induct (P := fun j (s : Sums) =>
    s.ThisSum = blockSum arr i j ∧ IsGreatest (insert 0 (Tried arr n i j)) s.MaxSum)
    (Nat.le_of_lt hi) ⟨(blockSum_self i).symm, hm⟩ ?_).2
  rintro j hij hj s ⟨hsum, hmax⟩
  rw [tried_succ hij hj, blockSum_succ hij, ← hsum]
  exact ⟨rfl, isGreatest_round hmax _⟩

/-! ### Divide and conquer -/

/-- The sums of the blocks from `i ≥ lo` to the centre. -/
def leftSums (arr : Nat → Int) (lo centre : Nat) : Set Int :=
  {s | ∃ i, lo ≤ i ∧ i < centre ∧ s = blockSum arr i centre}

/-- The sums of the blocks from the centre to `j ≤ hi`. -/
def rightSums (arr : Nat → Int) (centre hi : Nat) : Set Int :=
  {s | ∃ j, centre < j ∧ j ≤ hi ∧ s = blockSum arr centre j}

/-- The left border sum is the greatest of the blocks that end at the centre, or 0. -/
theorem maxLeftBorderSum_greatest {left Center : Nat} (h : left ≤ Center) :
    IsGreatest (insert 0 (leftSums arr left (Center + 1))) (maxLeftBorderSum arr left Center) := by
  refine (forDown_induct (P := fun i (s : Sums) => s.ThisSum = blockSum arr i (Center + 1) ∧
    IsGreatest (insert 0 (leftSums arr i (Center + 1))) s.MaxSum) (Nat.le_succ_of_le h) ?_ ?_).2
  · have hempty : leftSums arr (Center + 1) (Center + 1) = ∅ := by
      refine Set.eq_empty_of_forall_notMem ?_
      rintro s ⟨i, hlo, hi, -⟩
      omega
    rw [hempty, insert_empty_eq]
    exact ⟨(blockSum_self _).symm, isGreatest_singleton⟩
  · rintro i s - hi ⟨hsum, hmax⟩
    have hnext : blockSum arr i (Center + 1) = s.ThisSum + arr i := by
      rw [hsum, ← blockSum_add (show i ≤ i + 1 by omega) (show i + 1 ≤ Center + 1 by omega),
        blockSum_succ (Nat.le_refl i), blockSum_self]
      omega
    have hinsert : leftSums arr i (Center + 1)
        = insert (blockSum arr i (Center + 1)) (leftSums arr (i + 1) (Center + 1)) := by
      ext x
      constructor
      · rintro ⟨a, hlo, ha, rfl⟩
        rcases Nat.eq_or_lt_of_le hlo with rfl | hlt
        · exact Set.mem_insert _ _
        · exact Set.mem_insert_of_mem _ ⟨a, hlt, ha, rfl⟩
      · rintro (rfl | ⟨a, hlo, ha, rfl⟩)
        · exact ⟨i, Nat.le_refl i, hi, rfl⟩
        · exact ⟨a, by omega, ha, rfl⟩
    rw [hinsert, hnext]
    exact ⟨rfl, isGreatest_round hmax _⟩

/-- The right border sum is the greatest of the blocks that begin behind the centre, or 0. -/
theorem maxRightBorderSum_greatest {Center right : Nat} (h : Center ≤ right) :
    IsGreatest (insert 0 (rightSums arr (Center + 1) (right + 1)))
      (maxRightBorderSum arr Center right) := by
  refine (forUp_induct (P := fun j (s : Sums) => s.ThisSum = blockSum arr (Center + 1) j ∧
    IsGreatest (insert 0 (rightSums arr (Center + 1) j)) s.MaxSum) (Nat.succ_le_succ h) ?_ ?_).2
  · have hempty : rightSums arr (Center + 1) (Center + 1) = ∅ := by
      refine Set.eq_empty_of_forall_notMem ?_
      rintro s ⟨j, hj, hhi, -⟩
      omega
    rw [hempty, insert_empty_eq]
    exact ⟨(blockSum_self _).symm, isGreatest_singleton⟩
  · rintro j hj - s ⟨hsum, hmax⟩
    have hinsert : rightSums arr (Center + 1) (j + 1)
        = insert (blockSum arr (Center + 1) (j + 1)) (rightSums arr (Center + 1) j) := by
      ext x
      constructor
      · rintro ⟨b, hb, hhi, rfl⟩
        rcases Nat.eq_or_lt_of_le hhi with rfl | hlt
        · exact Set.mem_insert _ _
        · exact Set.mem_insert_of_mem _ ⟨b, hb, Nat.le_of_lt_succ hlt, rfl⟩
      · rintro (rfl | ⟨b, hb, hhi, rfl⟩)
        · exact ⟨j + 1, by omega, Nat.le_refl _, rfl⟩
        · exact ⟨b, hb, by omega, rfl⟩
    rw [hinsert, blockSum_succ hj, ← hsum]
    exact ⟨rfl, isGreatest_round hmax _⟩

/-- `max3` is the greatest of three numbers. -/
theorem max3_eq (a b c : Int) : max3 a b c = max (max a b) c := by
  rw [max3, max_def, max_def]
  split <;> split <;> split <;> omega

/-! With 0 the empty block is one of the blocks, and both parts of a block that is cut at the centre
may be empty. -/

/-- The sums with 0 are those of all blocks, the empty ones among them. -/
theorem mem_insert_blockSums {lo hi : Nat} (h : lo ≤ hi) {s : Int} :
    s ∈ insert 0 (blockSums arr lo hi) ↔
      ∃ i j, lo ≤ i ∧ i ≤ j ∧ j ≤ hi ∧ s = blockSum arr i j := by
  constructor
  · rintro (rfl | ⟨i, j, hi, hij, hj, rfl⟩)
    · exact ⟨lo, lo, Nat.le_refl lo, Nat.le_refl lo, h, (blockSum_self lo).symm⟩
    · exact ⟨i, j, hi, Nat.le_of_lt hij, hj, rfl⟩
  · rintro ⟨i, j, hi, hij, hj, rfl⟩
    rcases Nat.eq_or_lt_of_le hij with rfl | hlt
    · rw [blockSum_self]
      exact Set.mem_insert _ _
    · exact Set.mem_insert_of_mem _ ⟨i, j, hi, hlt, hj, rfl⟩

/-- The left sums with 0 are those of the blocks up to the centre, the empty one among them. -/
theorem mem_insert_leftSums {lo centre : Nat} (h : lo ≤ centre) {s : Int} :
    s ∈ insert 0 (leftSums arr lo centre) ↔
      ∃ i, lo ≤ i ∧ i ≤ centre ∧ s = blockSum arr i centre := by
  constructor
  · rintro (rfl | ⟨i, hi, hic, rfl⟩)
    · exact ⟨centre, h, Nat.le_refl centre, (blockSum_self centre).symm⟩
    · exact ⟨i, hi, Nat.le_of_lt hic, rfl⟩
  · rintro ⟨i, hi, hic, rfl⟩
    rcases Nat.eq_or_lt_of_le hic with rfl | hlt
    · rw [blockSum_self]
      exact Set.mem_insert _ _
    · exact Set.mem_insert_of_mem _ ⟨i, hi, hlt, rfl⟩

/-- The right sums with 0 are those of the blocks from the centre on, the empty one among them. -/
theorem mem_insert_rightSums {centre hi : Nat} (h : centre ≤ hi) {s : Int} :
    s ∈ insert 0 (rightSums arr centre hi) ↔
      ∃ j, centre ≤ j ∧ j ≤ hi ∧ s = blockSum arr centre j := by
  constructor
  · rintro (rfl | ⟨j, hcj, hj, rfl⟩)
    · exact ⟨centre, Nat.le_refl centre, h, (blockSum_self centre).symm⟩
    · exact ⟨j, Nat.le_of_lt hcj, hj, rfl⟩
  · rintro ⟨j, hcj, hj, rfl⟩
    rcases Nat.eq_or_lt_of_le hcj with rfl | hlt
    · rw [blockSum_self]
      exact Set.mem_insert _ _
    · exact Set.mem_insert_of_mem _ ⟨j, hlt, hj, rfl⟩

/-- The best of both halves and of the blocks across the centre. -/
theorem isGreatest_halves {lo centre hi : Nat} (hlo : lo ≤ centre) (hhi : centre ≤ hi)
    {l r lb rb : Int} (hl : IsGreatest (insert 0 (blockSums arr lo centre)) l)
    (hr : IsGreatest (insert 0 (blockSums arr centre hi)) r)
    (hlb : IsGreatest (insert 0 (leftSums arr lo centre)) lb)
    (hrb : IsGreatest (insert 0 (rightSums arr centre hi)) rb) :
    IsGreatest (insert 0 (blockSums arr lo hi)) (max3 l r (lb + rb)) := by
  have hwhole : lo ≤ hi := Nat.le_trans hlo hhi
  rw [max3_eq]
  constructor
  · -- Each of the three is the sum of a block.
    rw [mem_insert_blockSums hwhole]
    rcases max_choice (max l r) (lb + rb) with h | h
    · rw [h]
      rcases max_choice l r with h | h
      · obtain ⟨i, j, hi, hij, hj, hsum⟩ := (mem_insert_blockSums hlo).mp hl.1
        exact ⟨i, j, hi, hij, Nat.le_trans hj hhi, h.trans hsum⟩
      · obtain ⟨i, j, hi, hij, hj, hsum⟩ := (mem_insert_blockSums hhi).mp hr.1
        exact ⟨i, j, Nat.le_trans hlo hi, hij, hj, h.trans hsum⟩
    · obtain ⟨i, hi, hic, hleft⟩ := (mem_insert_leftSums hlo).mp hlb.1
      obtain ⟨j, hcj, hj, hright⟩ := (mem_insert_rightSums hhi).mp hrb.1
      refine ⟨i, j, hi, Nat.le_trans hic hcj, hj, ?_⟩
      rw [h, hleft, hright, blockSum_add hic hcj]
  · -- A block lies in a half or crosses the centre.
    intro s hs
    obtain ⟨i, j, hi, hij, hj, rfl⟩ := (mem_insert_blockSums hwhole).mp hs
    rcases Nat.le_total j centre with hjc | hcj
    · have hle : blockSum arr i j ≤ l :=
        hl.2 ((mem_insert_blockSums hlo).mpr ⟨i, j, hi, hij, hjc, rfl⟩)
      exact le_max_of_le_left (le_max_of_le_left hle)
    rcases Nat.le_total centre i with hci | hic
    · have hle : blockSum arr i j ≤ r :=
        hr.2 ((mem_insert_blockSums hhi).mpr ⟨i, j, hci, hij, hj, rfl⟩)
      exact le_max_of_le_left (le_max_of_le_right hle)
    · have hleft : blockSum arr i centre ≤ lb :=
        hlb.2 ((mem_insert_leftSums hlo).mpr ⟨i, hi, hic, rfl⟩)
      have hright : blockSum arr centre j ≤ rb :=
        hrb.2 ((mem_insert_rightSums hhi).mpr ⟨j, hcj, hj, rfl⟩)
      rw [← blockSum_add hic hcj]
      exact le_max_of_le_right (Int.add_le_add hleft hright)

/-- A single element. -/
theorem isGreatest_single (arr : Nat → Int) (i : Nat) :
    IsGreatest (insert 0 (blockSums arr i (i + 1))) (if arr i > 0 then arr i else 0) := by
  have hsingle : blockSums arr i (i + 1) = insert (arr i) ∅ := by
    ext s
    rw [insert_empty_eq, Set.mem_singleton_iff]
    constructor
    · rintro ⟨a, b, ha, hab, hb, rfl⟩
      obtain ⟨rfl, rfl⟩ : a = i ∧ b = i + 1 := by omega
      rw [blockSum_succ (Nat.le_refl a), blockSum_self, Int.zero_add]
    · rintro rfl
      refine ⟨i, i + 1, Nat.le_refl i, Nat.lt_succ_self i, Nat.le_refl _, ?_⟩
      rw [blockSum_succ (Nat.le_refl i), blockSum_self, Int.zero_add]
  rw [hsingle]
  refine isGreatest_round ?_ (arr i)
  rw [insert_empty_eq]
  exact isGreatest_singleton

/-- The recursive algorithm returns the greatest sum of a block, or 0. -/
theorem maxSubSum_greatest (arr : Nat → Int) (left right : Nat) (h : left ≤ right) :
    IsGreatest (insert 0 (blockSums arr left (right + 1))) (maxSubSum arr left right h) := by
  fun_induction maxSubSum arr left right h with
  | case1 left h hpos =>
    have hsingle := isGreatest_single arr left
    rwa [if_pos hpos] at hsingle
  | case2 left h hpos =>
    have hsingle := isGreatest_single arr left
    rwa [if_neg hpos] at hsingle
  | case3 left right h hne Center MaxLeftSum MaxRightSum ihLeft ihRight =>
    exact isGreatest_halves (by omega) (by omega) ihLeft ihRight
      (maxLeftBorderSum_greatest (by omega)) (maxRightBorderSum_greatest (by omega))

/-! ### The three programs -/

/-- There are finitely many sums of blocks. -/
theorem finite_blockSums (arr : Nat → Int) (lo hi : Nat) : (blockSums arr lo hi).Finite := by
  refine ((Set.finite_Iic (hi, hi)).image fun p : Nat × Nat => blockSum arr p.1 p.2).subset ?_
  rintro s ⟨i, j, -, hij, hj, rfl⟩
  exact ⟨(i, j), ⟨by dsimp only; omega, hj⟩, rfl⟩

/-- The three programs return the greater of 0 and the greatest sum of a block. -/
theorem maxSubsequenceSum_agree (arr : Nat → Int) (n : Nat) (hn : 1 ≤ n) :
    ∃ m, IsGreatest (blockSums arr 0 n) m ∧ maxSubsequenceSum01 arr n = max 0 m ∧
      maxSubsequenceSum02 arr n = max 0 m ∧ maxSubsequenceSum03 arr n = max 0 m := by
  have hne : (blockSums arr 0 n).Nonempty :=
    ⟨blockSum arr 0 n, 0, n, Nat.le_refl 0, hn, Nat.le_refl n, rfl⟩
  obtain ⟨m, hm⟩ : ∃ m, IsGreatest (blockSums arr 0 n) m :=
    Set.exists_max_image (blockSums arr 0 n) id (finite_blockSums arr 0 n) hne
  have hmax : IsGreatest (insert 0 (blockSums arr 0 n)) (max 0 m) := hm.insert 0
  refine ⟨m, hm, maxSubsequenceSum01_greatest.unique hmax,
    maxSubsequenceSum02_greatest.unique hmax, ?_⟩
  have hthird := maxSubSum_greatest arr 0 (n - 1) (Nat.zero_le _)
  rw [Nat.sub_add_cancel hn] at hthird
  exact hthird.unique hmax

/-- Two elements of which neither is positive. -/
theorem maxSubsequenceSum_agree_nonpos : ∃ m, IsGreatest (blockSums (fun _ => -1) 0 2) m ∧
    maxSubsequenceSum01 (fun _ => -1) 2 = max 0 m ∧
    maxSubsequenceSum02 (fun _ => -1) 2 = max 0 m ∧
    maxSubsequenceSum03 (fun _ => -1) 2 = max 0 m :=
  maxSubsequenceSum_agree (fun _ => -1) 2 (by decide)

end LearnGit.Proofs.MaxSubsequenceSum
