import LearnGit.DynamicProgramming.BadNeighbors
import LearnGit.Lib.Spaced
import Mathlib.Algebra.Order.Ring.Int
import Mathlib.Data.List.GetD

/-!
# `LearnGit.Proofs.DynamicProgramming.BadNeighbors`: when the two programs are right

`maxDonations_right_iff`: for all donations of two neighbours or more, the two programs return the
greatest sum of a set without neighbours if and only if no such sum overflows an `int`. (Of 2 ^ 31
donations or more, the programs see those that are left of their number as an `int`.)

Both programs solve the problem for the line without the last donation and for the line without the
first one. The first program has at `dp[i]` the greatest sum of a set that ends at `i` (`ends`), the
second one the greatest sum of a set up to `i` (`best`).
-/

set_option autoImplicit false

namespace LearnGit.Proofs.DynamicProgramming.BadNeighbors

open LearnGit.Lib
open LearnGit.DynamicProgramming.BadNeighbors

/-! ### Statement -/

/-- The donation of a neighbour. -/
def donation (donations : List Int) (i : Nat) : Int := donations.getD i 0

/-- Both programs return the greatest sum of a set of positions no two of which are neighbours on
the circle, whatever is in the memory. -/
def Right (donations : List Int) : Prop :=
  ∀ memory : Fin 4 → Nat → Int, ∃ m,
    BottomUp.maxDonations (memory 0) (memory 1) donations = some m ∧
    Next.maxDonations (memory 2) (memory 3) donations = some m ∧
    IsGreatest (roundSums (donation donations) donations.length) m

/-! ### The greatest sums on a line -/

/-- The donations are numbers of an `int` that are not negative, and `f` has them. -/
structure Donates (arr : List Int) (f : Nat → Int) : Prop where
  get : ∀ i < arr.length, arr[i]? = some (f i)
  nonneg : ∀ i, 0 ≤ f i
  lt : ∀ i, f i < 2 ^ 31

/-- A list of donations that are not negative has its own values. -/
theorem donates_donation {donations : List Int} (h : ∀ x ∈ donations, 0 ≤ x ∧ x < 2 ^ 31) :
    Donates donations (donation donations) := by
  have hall : ∀ i, 0 ≤ donation donations i ∧ donation donations i < 2 ^ 31 := by
    intro i
    rw [donation]
    rcases Nat.lt_or_ge i donations.length with hi | hi
    · rw [List.getD_eq_getElem _ _ hi]
      exact h _ (List.getElem_mem hi)
    · rw [List.getD_eq_default _ _ hi]
      decide
  refine ⟨fun i hi => ?_, fun i => (hall i).1, fun i => (hall i).2⟩
  rw [donation, List.getD_eq_getElem _ _ hi, List.getElem?_eq_getElem hi]

/-- The program's `max` is the greater of two numbers. -/
theorem max_eq (a b : Int) : DynamicProgramming.BadNeighbors.max a b = a ⊔ b := by
  rw [DynamicProgramming.BadNeighbors.max]
  split <;> omega

/-- The greatest sum of a set whose last place is `i`. -/
def ends (f : Nat → Int) (a i : Nat) : Int := f i + best f a (i - 1 - a)

variable {arr : List Int} {f : Nat → Int} {a i m : Nat}

/-- The greatest sum up to `i` is the one before it or one that ends at `i`. -/
theorem best_ends (ha : a ≤ i) : best f a (i + 1 - a) = best f a (i - a) ⊔ ends f a i := by
  obtain ⟨k, rfl⟩ := Nat.exists_eq_add_of_le ha
  have hsucc : a + k + 1 - a = k + 1 := by omega
  have hbefore : a + k - 1 - a = k - 1 := by omega
  rw [hsucc, best_succ, Nat.add_sub_cancel_left, ends, hbefore, Int.add_comm]

/-- The greatest sum of one place is its donation. -/
theorem best_first (h : Donates arr f) : best f a 1 = f a := max_eq_right (h.nonneg a)

/-- The array has two cells more than the difference of its bounds. -/
theorem newArray_eq {memory : Nat → Int} (hm : m + 2 < 2 ^ 31) :
    newArray memory a ((a + m : Nat) : Int) = some ⟨m + 2, memory⟩ := by
  have hlength : ((a + m : Nat) : Int) - a = m := by omega
  have hsize : ((m : Int) + 2).toNat = m + 2 := by omega
  rw [newArray, hlength, int32_of_range ⟨by omega, by omega⟩, Option.bind_eq_bind, Option.bind_some,
    int32_of_range ⟨by omega, by omega⟩, Option.bind_some,
    if_pos (by omega), hsize]

/-- Both programs return the greater one of the sums for the two lines. -/
theorem greater_line {x y b c : Int} (hx : x = c ∧ x < 2 ^ 31) (hy : y = b ∧ y < 2 ^ 31) :
    (if x > y then x else y) = b ⊔ c ∧ (if x > y then x else y) < 2 ^ 31 := by
  split
  · omega
  · omega

/-- A number of donations that is an `int`. -/
theorem toInt32_le {k n : Nat} (h : toInt32 k = n) : n < 2 ^ 31 := by
  have hlt := (BitVec.ofNat 32 k).toInt_lt
  rw [← toInt32, h] at hlt
  omega

/-- A length is at least the `int` it is turned into. -/
theorem le_of_toInt32 {k n : Nat} (h : toInt32 k = n) : n ≤ k := by
  rw [toInt32, BitVec.toInt_ofNat', Int.bmod_def] at h
  omega

/-! ### `badneighbors_bottom_up.cpp` -/

namespace BottomUp

open LearnGit.DynamicProgramming.BadNeighbors.BottomUp

/-- The array behind the rounds before `i`. -/
structure Filled (f : Nat → Int) (a m i : Nat) (dp : Cells Int) : Prop where
  size : dp.size = m + 2
  cell : ∀ j, a ≤ j → j < i → dp.cell j = ends f a j

/-- The array in the round of `i`, before the choice of `j`. -/
structure Choosing (f : Nat → Int) (a m i j : Nat) (dp : Cells Int) : Prop where
  filled : Filled f a m i dp
  here : dp.cell i = f i + best f a (j - a)
  lt : dp.cell i < 2 ^ 31

/-- A first store of the round of `i` starts the choice. -/
theorem Filled.choosing {dp : Cells Int} (h : Filled f a m i dp) (hi : i < m + 2)
    {j : Nat} {x : Int} (hx : x = f i + best f a (j - a)) (hlt : x < 2 ^ 31) :
    ∃ dp', dp.write i x = some dp' ∧ Choosing f a m i j dp' := by
  refine ⟨_, Cells.write_of_lt (h.size.symm ▸ hi), ⟨h.size, fun k hk hki => ?_⟩, ?_, ?_⟩
  · rw [← h.cell k hk hki]
    exact Function.update_of_ne hki.ne _ _
  · rw [← hx]
    exact Function.update_self i x dp.cell
  · exact lt_of_eq_of_lt (Function.update_self i x dp.cell) hlt

/-- The program adds no more than the greatest sum. -/
theorem choose_yields (h : Donates arr f) {j : Nat} {dp : Cells Int} (ha : a ≤ j)
    (hj : j + 1 < i) (hi : i < m + 2) (hlength : i < arr.length) (hdp : Choosing f a m i j dp) :
    Yields (best f a (i + 1 - a) < 2 ^ 31) (Choosing f a m i (j + 1)) (choose arr i j dp) := by
  have hsize := hdp.filled.size
  have hbest : best f a (j + 1 - a) = best f a (j - a) ⊔ ends f a j := best_ends ha
  have hnonneg : 0 ≤ ends f a j := Int.add_nonneg (h.nonneg j) best_nonneg
  rw [choose, Cells.read_of_lt (by omega), Cells.read_of_lt (by omega), h.get i hlength,
    hdp.filled.cell j ha (by omega)]
  refine (yields_int32 fun hfits => ?_).bind fun sum _ hsum => ?_
  · -- With the place `i`, the set that ends at `j` is still one of those up to `i`.
    have hmono : best f a (j + 1 - a) ≤ best f a (i - 1 - a) := best_mono (by omega)
    have hends : best f a (i + 1 - a) = best f a (i - a) ⊔ ends f a i := best_ends (by omega)
    have hi' : ends f a i = f i + best f a (i - 1 - a) := rfl
    have hf := h.nonneg i
    constructor <;> omega
  · obtain ⟨rfl, hrange⟩ := hsum
    have hlt := hdp.lt
    have hhere := hdp.here
    have hrange' := hrange.2
    obtain ⟨dp', hwrite, hdp'⟩ := hdp.filled.choosing hi (j := j + 1)
      (x := DynamicProgramming.BadNeighbors.max (dp.cell i) (ends f a j + f i))
      (by rw [max_eq]; omega) (by rw [max_eq]; omega)
    rw [hwrite]
    exact hdp'

/-- The locals behind the rounds before `i`. -/
structure Solved (f : Nat → Int) (a m i : Nat) (s : Locals) : Prop where
  filled : Filled f a m i s.dp
  ans : s.ans = best f a (i - a)
  lt : s.ans < 2 ^ 31

/-- When every place before the last was tried the round of `i` is done. -/
theorem Choosing.next {dp : Cells Int} {j : Nat} (h : Choosing f a m i j dp) (hj : j = i - 1) :
    Filled f a m (i + 1) dp := by
  refine ⟨h.filled.size, fun k hk hki => ?_⟩
  rcases Nat.lt_or_eq_of_le (Nat.le_of_lt_succ hki) with hlt | rfl
  · exact h.filled.cell k hk hlt
  · rw [h.here, hj, ends]

/-- A round returns where its sum is an `int`, and is right then. -/
theorem solveRound_yields (h : Donates arr f) {s : Locals} (ha : a ≤ i) (hi : i < m + 2)
    (hlength : i < arr.length) (hs : Solved f a m i s) :
    Yields (best f a (i + 1 - a) < 2 ^ 31) (Solved f a m (i + 1)) (solveRound arr a i s) := by
  rw [solveRound]
  split
  · rename_i heq
    subst heq
    have hone : i + 1 - i = 1 := by omega
    have hbest : best f i (i + 1 - i) = f i := by rw [hone, best_first h]
    obtain ⟨dp', hwrite, hdp'⟩ := hs.filled.choosing hi (j := i - 1) (x := f i)
      (by rw [Nat.sub_eq_zero_of_le (Nat.sub_le i 1), best, Int.add_zero]) (h.lt i)
    rw [h.get i hlength, Option.bind_eq_bind, Option.bind_some, hwrite]
    exact ⟨hdp'.next rfl, hbest.symm, h.lt i⟩
  · rename_i hne
    have hends : best f a (i + 1 - a) = best f a (i - a) ⊔ ends f a i := best_ends ha
    -- The choice starts with the donation of `i` alone, and takes one `j` after the other to it.
    obtain ⟨dp, hwrite, hdp⟩ := hs.filled.choosing hi (j := a) (x := f i)
      (by rw [Nat.sub_self, best, Int.add_zero]) (h.lt i)
    rw [h.get i hlength, Option.bind_eq_bind, Option.bind_some, hwrite]
    have hloop := forUpM_yields (P := Choosing f a m i) (by omega : a ≤ i - 1) hdp
      fun j dp hj hji hdp => choose_yields h hj (by omega) hi hlength hdp
    refine hloop.bind fun dp' _ hdp' => ?_
    have hhere : dp'.cell i = ends f a i := hdp'.here
    have hans := hs.ans
    rw [Cells.read_of_lt (hdp'.filled.size.symm ▸ hi)]
    refine ⟨hdp'.next rfl, ?_, ?_⟩
    · simp only
      split <;> omega
    · simp only
      split
      · exact hdp'.lt
      · exact hs.lt

/-- `solve` returns where the greatest sum of the line is an `int`, and returns that sum. -/
theorem solve_yields (h : Donates arr f) {memory : Nat → Int} {b : Int} (ha : a ≤ 1)
    (hb : b = (a + m : Nat)) (hm : m + 2 < 2 ^ 31) (hlength : a + m < arr.length) :
    Yields (best f a (m + 1) < 2 ^ 31) (fun x => x = best f a (m + 1) ∧ x < 2 ^ 31)
      (solve memory a b arr) := by
  subst hb
  rw [solve, newArray_eq hm, Option.bind_eq_bind, Option.bind_some]
  have hend : (((a + m : Nat) : Int) + 1).toNat = a + m + 1 := by omega
  have hplaces : a + m + 1 - a = m + 1 := by omega
  have hstart : Solved f a m a ⟨⟨m + 2, memory⟩, 0⟩ := by
    refine ⟨⟨rfl, fun j hj hja => absurd hja (Nat.not_lt.mpr hj)⟩, ?_, by norm_num⟩
    rw [Nat.sub_self, best]
  have hloop : Yields (best f a (m + 1) < 2 ^ 31) (Solved f a m (a + m + 1))
      (forUpM a (a + m + 1) (solveRound arr a) ⟨⟨m + 2, memory⟩, 0⟩) :=
    forUpM_yields (by omega) hstart fun i s hi him hs =>
      (solveRound_yields h hi (by omega) (by omega) hs).mono
        (lt_of_le_of_lt (best_mono (by omega))) fun _ hs' => hs'
  rw [hend]
  refine hloop.bind fun s _ hs => ?_
  exact ⟨hs.ans.trans (by rw [hplaces]), hs.lt⟩

/-- The program returns the greater one of the sums for the two lines. -/
theorem maxDonations_yields (h : Donates arr f) (memory₁ memory₂ : Nat → Int) {n : Nat}
    (hint : toInt32 arr.length = (n + 2 : Nat)) (hn : n + 2 ≤ arr.length) :
    Yields (best f 0 (n + 1) < 2 ^ 31 ∧ best f 1 (n + 1) < 2 ^ 31)
      (fun x => x = best f 0 (n + 1) ⊔ best f 1 (n + 1) ∧ x < 2 ^ 31)
      (maxDonations memory₁ memory₂ arr) := by
  have hsize := toInt32_le hint
  rw [maxDonations, hint]
  refine (yields_int32 fun _ => ⟨by omega, by omega⟩).bind fun last _ hlast => ?_
  refine ((solve_yields h le_rfl (m := n) (by omega) hsize (by omega)).mono And.right
    fun _ hx => hx).bind fun x _ hx => ?_
  refine (yields_int32 fun _ => ⟨by omega, by omega⟩).bind fun last' _ hlast' => ?_
  refine ((solve_yields h (Nat.zero_le 1) (m := n) (by omega) hsize (by omega)).mono And.left
    fun _ hy => hy).bind fun y _ hy => ?_
  exact greater_line hx hy

end BottomUp

/-! ### `badneighbors_bottom_up_next.cpp` -/

namespace Next

open LearnGit.DynamicProgramming.BadNeighbors.Next

/-- The array behind the rounds before `i`. -/
structure Solved (f : Nat → Int) (a m i : Nat) (dp : Cells Int) : Prop where
  size : dp.size = m + 2
  cell : ∀ j, a ≤ j → j < i → dp.cell j = best f a (j + 1 - a) ∧ dp.cell j < 2 ^ 31

/-- Storing the greatest sum up to `i` finishes the round. -/
theorem Solved.write {dp : Cells Int} {x : Int} (h : Solved f a m i dp) (hi : i < m + 2)
    (hx : x = best f a (i + 1 - a)) (hlt : x < 2 ^ 31) :
    ∃ dp', dp.write i x = some dp' ∧ Solved f a m (i + 1) dp' := by
  refine ⟨_, Cells.write_of_lt (h.size.symm ▸ hi), h.size, fun j hj hji => ?_⟩
  rcases Nat.lt_or_eq_of_le (Nat.le_of_lt_succ hji) with hlt' | rfl
  · simp only [Function.update_of_ne hlt'.ne]
    exact h.cell j hj hlt'
  · simp only [Function.update_self]
    exact ⟨hx, hlt⟩

/-- A round returns where its sum is an `int`, and is right then. -/
theorem solveRound_yields (h : Donates arr f) {dp : Cells Int} (ha : a ≤ i) (hi : i < m + 2)
    (hlength : i < arr.length) (hdp : Solved f a m i dp) :
    Yields (best f a (i + 1 - a) < 2 ^ 31) (Solved f a m (i + 1)) (solveRound arr a i dp) := by
  have hsize := hdp.size
  rw [solveRound]
  split
  · rename_i heq
    subst heq
    have hone : i + 1 - i = 1 := by omega
    obtain ⟨dp', hwrite, hdp'⟩ := hdp.write hi (x := f i) (by rw [hone, best_first h]) (h.lt i)
    rw [h.get i hlength, Option.bind_eq_bind, Option.bind_some, hwrite]
    exact hdp'
  · rename_i hne
    split
    · rename_i hgt
      -- The program adds the donation to the greatest sum up to `i - 2`.
      have hbest : best f a (i + 1 - a) = best f a (i - a) ⊔ (f i + best f a (i - 1 - a)) :=
        best_ends ha
      have hwithout := hdp.cell (i - 1) (by omega) (by omega)
      have hbefore := hdp.cell (i - 2) (by omega) (by omega)
      have hone : i - 1 + 1 - a = i - a := by omega
      have htwo : i - 2 + 1 - a = i - 1 - a := by omega
      rw [hone] at hwithout
      rw [htwo] at hbefore
      have hindex : (i : Int) - 1 = (i - 1 : Nat) := by omega
      have hindex' : (i : Int) - 2 = (i - 2 : Nat) := by omega
      rw [hindex, hindex', Cells.read_of_lt (by omega), Cells.read_of_lt (by omega),
        h.get i hlength]
      have hf := h.nonneg i
      have hnonneg : 0 ≤ best f a (i - 1 - a) := best_nonneg
      refine (yields_int32 fun hfits => ⟨by omega, by omega⟩).bind fun sum _ hsum => ?_
      obtain ⟨rfl, hrange⟩ := hsum
      have hrange' := hrange.2
      obtain ⟨dp', hwrite, hdp'⟩ := hdp.write hi
        (x := DynamicProgramming.BadNeighbors.max (dp.cell (i - 1)) (dp.cell (i - 2) + f i))
        (by rw [max_eq]; omega) (by rw [max_eq]; omega)
      rw [hwrite]
      exact hdp'
    · rename_i hle
      -- The second place has no place before its neighbour.
      obtain rfl : i = a + 1 := by omega
      have hbest : best f a (a + 1 + 1 - a) = f a ⊔ f (a + 1) := by
        have htwo : a + 1 + 1 - a = 2 := by omega
        rw [htwo, best_succ, best_first h, best, zero_add]
      have hfirst := h.lt a
      have hsecond := h.lt (a + 1)
      obtain ⟨dp', hwrite, hdp'⟩ := hdp.write hi
        (x := DynamicProgramming.BadNeighbors.max (f a) (f (a + 1)))
        (by rw [max_eq, hbest]) (by rw [max_eq]; omega)
      rw [h.get a (by omega), h.get (a + 1) hlength, Option.bind_eq_bind, Option.bind_some,
        Option.bind_some, hwrite]
      exact hdp'

/-- `solve` returns where the greatest sum of the line is an `int`, and returns that sum. -/
theorem solve_yields (h : Donates arr f) {memory : Nat → Int} {b : Int} (ha : a ≤ 1)
    (hb : b = (a + m : Nat)) (hm : m + 2 < 2 ^ 31) (hlength : a + m < arr.length) :
    Yields (best f a (m + 1) < 2 ^ 31) (fun x => x = best f a (m + 1) ∧ x < 2 ^ 31)
      (solve memory a b arr) := by
  subst hb
  rw [solve, newArray_eq hm, Option.bind_eq_bind, Option.bind_some]
  have hend : (((a + m : Nat) : Int) + 1).toNat = a + m + 1 := by omega
  have hplaces : a + m + 1 - a = m + 1 := by omega
  have hstart : Solved f a m a ⟨m + 2, memory⟩ :=
    ⟨rfl, fun j hj hja => absurd hja (Nat.not_lt.mpr hj)⟩
  have hloop : Yields (best f a (m + 1) < 2 ^ 31) (Solved f a m (a + m + 1))
      (forUpM a (a + m + 1) (solveRound arr a) ⟨m + 2, memory⟩) :=
    forUpM_yields (by omega) hstart fun i dp hi him hdp =>
      (solveRound_yields h hi (by omega) (by omega) hdp).mono
        (lt_of_le_of_lt (best_mono (by omega))) fun _ hdp' => hdp'
  rw [hend]
  refine hloop.bind fun dp _ hdp => ?_
  have hsize := hdp.size
  have hresult := hdp.cell (a + m) (by omega) (by omega)
  rw [hplaces] at hresult
  rw [Cells.read_of_lt (by omega)]
  exact hresult

/-- Both lines decide: the function returns the greater of their sums where both are an `int`. -/
theorem maxDonations_yields (h : Donates arr f) (memory₁ memory₂ : Nat → Int) {n : Nat}
    (hint : toInt32 arr.length = (n + 2 : Nat)) (hn : n + 2 ≤ arr.length) :
    Yields (best f 0 (n + 1) < 2 ^ 31 ∧ best f 1 (n + 1) < 2 ^ 31)
      (fun x => x = best f 0 (n + 1) ⊔ best f 1 (n + 1) ∧ x < 2 ^ 31)
      (maxDonations memory₁ memory₂ arr) := by
  have hsize := toInt32_le hint
  rw [maxDonations, hint]
  refine (yields_int32 fun _ => ⟨by omega, by omega⟩).bind fun last _ hlast => ?_
  refine ((solve_yields h (Nat.zero_le 1) (m := n) (by omega) hsize (by omega)).mono And.left
    fun _ hx => hx).bind fun x _ hx => ?_
  refine (yields_int32 fun _ => ⟨by omega, by omega⟩).bind fun last' _ hlast' => ?_
  refine ((solve_yields h le_rfl (m := n) (by omega) hsize (by omega)).mono And.right
    fun _ hy => hy).bind fun y _ hy => ?_
  rw [max_comm]
  exact greater_line hx hy

/-- Without an end, the program reads in front of its array. -/
theorem solve_of_neg {memory : Nat → Int} {b : Int} (hb : b < 0) : solve memory 0 b arr = none := by
  have hend : (b + 1).toNat = 0 := by omega
  rw [solve, hend]
  cases newArray memory ((0 : Nat) : Int) b with
  | none => rfl
  | some dp => exact Cells.read_of_neg hb

/-- For fewer than two donations there is no result. -/
theorem maxDonations_of_lt {memory₁ memory₂ : Nat → Int} (hint : toInt32 arr.length < 2) :
    maxDonations memory₁ memory₂ arr = none := by
  rw [maxDonations]
  cases hlast : int32 (toInt32 arr.length - 2) with
  | none => rfl
  | some last =>
    have hvalue : last = toInt32 arr.length - 2 ∧ Int32Range (toInt32 arr.length - 2) :=
      (yields_int32 False.elim).of_eq_some hlast
    rw [Option.bind_eq_bind, Option.bind_some, solve_of_neg (by omega)]
    rfl

end Next

/-! ### The theorem -/

/-- The number of donations is at least two as an `int`, and the greatest sum is an `int` and that
of a set of the positions below this number. -/
def Fits (donations : List Int) : Prop :=
  ∃ n : Nat, toInt32 donations.length = n ∧ 2 ≤ n ∧
    ∀ x ∈ roundSums (donation donations) donations.length,
      x < 2 ^ 31 ∧ ∃ y ∈ roundSums (donation donations) n, x ≤ y

/-- The result is right exactly where both sums are an `int`. -/
theorem right_iff_fits {donations : List Int} (hint : ∀ x ∈ donations, 0 ≤ x ∧ x < 2 ^ 31) :
    Right donations ↔ Fits donations := by
  have hdonates := donates_donation hint
  constructor
  · intro hright
    obtain ⟨m, -, hnext, hgreatest⟩ := hright fun _ _ => 0
    rcases lt_or_ge (toInt32 donations.length) 2 with hlt | hge
    -- A number of donations that is not at least two, as an `int`, gives no result.
    · rw [Next.maxDonations_of_lt hlt] at hnext
      exact absurd hnext (Option.some_ne_none m).symm
    · obtain ⟨n, hn⟩ := Int.eq_ofNat_of_zero_le (a := toInt32 donations.length - 2) (by omega)
      have hnumber : toInt32 donations.length = (n + 2 : Nat) := by omega
      obtain ⟨hm, hlt⟩ :=
        (Next.maxDonations_yields hdonates _ _ hnumber (le_of_toInt32 hnumber)).of_eq_some hnext
      refine ⟨n + 2, hnumber, by omega, fun x hx => ?_⟩
      have hround := roundSums_greatest (donation donations) (by omega : 2 ≤ n + 2)
      exact ⟨lt_of_le_of_lt (hgreatest.2 hx) hlt, m, hm ▸ hround.1, hgreatest.2 hx⟩
  · rintro ⟨n, hnumber, hn, hfits⟩ memory
    obtain ⟨n, rfl⟩ : ∃ k, n = k + 2 := ⟨n - 2, by omega⟩
    have hle := le_of_toInt32 hnumber
    -- The greatest sum of the positions that the programs see is one of the whole circle.
    have hround := roundSums_greatest (donation donations) hn
    have hmem := roundSums_mono hle hround.1
    have hmax := max_lt_iff.mp (hfits _ hmem).1
    obtain ⟨m, hup, hm, -⟩ :=
      (BottomUp.maxDonations_yields hdonates (memory 0) (memory 1) hnumber hle).exists_of hmax
    obtain ⟨m', hnext, hm', -⟩ :=
      (Next.maxDonations_yields hdonates (memory 2) (memory 3) hnumber hle).exists_of hmax
    refine ⟨m, hup, hm'.trans hm.symm ▸ hnext, hm ▸ hmem, fun x hx => ?_⟩
    obtain ⟨-, y, hy, hxy⟩ := hfits x hx
    exact hxy.trans (hm ▸ hround.2 hy)

/-- For two donations or more, the two programs return the greatest sum of a set without neighbours
on the circle exactly if no such sum overflows, where the number of the donations is an `int`. Of
more donations, the first ones that are left of this number must have the greatest sum too. -/
theorem maxDonations_right_iff (donations : List Int) (hn : 2 ≤ donations.length)
    (hint : ∀ x ∈ donations, 0 ≤ x ∧ x < 2 ^ 31) :
    (Right donations ↔ Fits donations) ∧ (donations.length < 2 ^ 31 →
      (Right donations ↔ ∀ x ∈ roundSums (donation donations) donations.length, x < 2 ^ 31)) := by
  refine ⟨right_iff_fits hint, fun hlength => (right_iff_fits hint).trans ?_⟩
  constructor
  · rintro ⟨n, -, -, hfits⟩ x hx
    exact (hfits x hx).1
  · intro hlt
    exact ⟨donations.length, toInt32_of_lt hlength, hn, fun x hx => ⟨hlt x hx, x, hx, le_rfl⟩⟩

/-- Three donations of seven: the two programs return seven. -/
theorem maxDonations_right_iff_sevens :
    (2 ≤ [7, 7, 7].length ∧ ∀ x ∈ [7, 7, 7], (0 : Int) ≤ x ∧ x < 2 ^ 31) ∧
      (Right [7, 7, 7] ↔ Fits [7, 7, 7]) ∧ ([7, 7, 7].length < 2 ^ 31 →
        (Right [7, 7, 7] ↔ ∀ x ∈ roundSums (donation [7, 7, 7]) 3, x < 2 ^ 31)) :=
  ⟨by decide, maxDonations_right_iff [7, 7, 7] (by decide) (by decide)⟩

/-- The first and the third of these donations are more than an `int` together. -/
theorem maxDonations_overflow :
    (2 ≤ [2147483647, 0, 1, 0].length ∧ ∀ x ∈ [2147483647, 0, 1, 0], (0 : Int) ≤ x ∧ x < 2 ^ 31) ∧
      ¬Right [2147483647, 0, 1, 0] := by
  refine ⟨by decide, fun hright => ?_⟩
  obtain ⟨m, -, hnext, -⟩ := hright fun _ _ => 0
  have hnone : Next.maxDonations (fun _ => 0) (fun _ => 0) [2147483647, 0, 1, 0] = none := by decide
  rw [hnone] at hnext
  exact absurd hnext (Option.some_ne_none m).symm

end LearnGit.Proofs.DynamicProgramming.BadNeighbors
