import LearnGit.Lib.PowerSums
import LearnGit.Proofs.DynamicProgramming.ModularMatrix
import Mathlib.Algebra.BigOperators.Intervals

/-!
# `LearnGit.Proofs.DynamicProgramming.PowerPartition`: the count of sums of powers

`count_eq`: the result is the number of ways to write `X` as an unordered sum of powers of `M`,
modulo `mod`, and nothing overflows.

The vector of a number `R` has the ways for `R` with its last `j` digits dropped, for every `j`
(`ways`). To go from `R` to `R + 1` is to sum the entries up to the last digit that is not 0 in
`R + 1` (`ways_succ`). The matrix `w[i]` goes on by `M ^ i` (`advance_ways`), where the sums behind
the digit `i` are left out; this is right for all multiples of `M ^ i` but those of `M ^ (i + 1)`.
The digits of `X` go from 0 to `X` by such steps (`digits_spec`).
-/

set_option autoImplicit false

namespace LearnGit.Proofs.DynamicProgramming.PowerPartition

open LearnGit.Lib
open LearnGit.DynamicProgramming
open LearnGit.DynamicProgramming.PowerPartition hiding Matrix

variable {M n i : Nat}

/-! ### The ways for a number and its first digits -/

/-- The number of ways for `R` without its last `j` digits. -/
noncomputable def ways (M R j : Nat) : Residue := (numPowerSums M (R / M ^ j) : Residue)

/-- The entries up to `i`, each with those behind it up to `i`. -/
def sums (i : Nat) (v : Nat → Residue) (j : Nat) : Residue :=
  if j ≤ i then ∑ k ∈ Finset.Ico j (i + 1), v k else v j

/-- Without a digit there is one partition. -/
theorem ways_zero (hM : 2 ≤ M) : ways M 0 = fun _ => 1 := by
  funext j
  rw [ways, Nat.zero_div, numPowerSums_zero hM, Nat.cast_one]

/-- A digit in front of which there is a carry. -/
theorem ways_succ_of_dvd (hM : 2 ≤ M) {R j : Nat} (h : M ^ (j + 1) ∣ R + 1) :
    ways M (R + 1) j = ways M R j + ways M (R + 1) (j + 1) := by
  have hj : M ^ j ∣ R + 1 := (pow_dvd_pow M (Nat.le_succ j)).trans h
  obtain ⟨q, hq⟩ := h
  have hpos : 0 < M ^ (j + 1) := Nat.pow_pos (by omega)
  have hquotient : R / M ^ j + 1 = M * q := by
    rw [← Nat.succ_div_of_dvd hj, hq, Nat.pow_succ, Nat.mul_assoc,
      Nat.mul_div_cancel_left _ (Nat.pow_pos (by omega))]
  rw [ways, ways, ways, Nat.succ_div_of_dvd hj, numPowerSums_succ hM hquotient, hq,
    Nat.mul_div_cancel_left q hpos, Nat.cast_add]

/-- The last digit that is counted up. -/
theorem ways_succ_of_not_dvd (hM : 2 ≤ M) {R j : Nat} (h : ¬M ^ (j + 1) ∣ R + 1) :
    ways M (R + 1) j = ways M R j := by
  rw [ways, ways]
  by_cases hj : M ^ j ∣ R + 1
  · have hdigit : ¬M ∣ R / M ^ j + 1 := by
      intro hdvd
      rw [← Nat.succ_div_of_dvd hj] at hdvd
      exact h (by rw [Nat.pow_succ]; exact Nat.mul_dvd_of_dvd_div hj hdvd)
    rw [Nat.succ_div_of_dvd hj, numPowerSums_succ_of_not_dvd hM hdigit]
  · rw [Nat.succ_div_of_not_dvd hj]

/-- The step to the next number. -/
theorem ways_succ (hM : 2 ≤ M) {R : Nat} (hdvd : M ^ i ∣ R + 1) (hnot : ¬M ^ (i + 1) ∣ R + 1) :
    ways M (R + 1) = sums i (ways M R) := by
  funext j
  rw [sums]
  split
  · rename_i hj
    -- From the last digit to the first.
    obtain ⟨d, rfl⟩ := Nat.exists_eq_add_of_le hj
    induction d generalizing j with
    | zero =>
      rw [Nat.add_zero, Finset.sum_Ico_succ_top (Nat.le_refl j), Finset.Ico_self, Finset.sum_empty,
        zero_add]
      exact ways_succ_of_not_dvd hM hnot
    | succ d ih =>
      have hplace : j + (d + 1) = j + 1 + d := by omega
      rw [hplace] at hdvd hnot ⊢
      have hnext := ih (j + 1) hdvd hnot (by omega)
      rw [Finset.sum_eq_sum_Ico_succ_bot (by omega),
        ways_succ_of_dvd hM ((pow_dvd_pow M (by omega)).trans hdvd), hnext]
  · rename_i hj
    exact ways_succ_of_not_dvd hM fun h => hnot ((pow_dvd_pow M (by omega)).trans h)

/-! ### Steps of powers -/

/-- What the matrix `a` of the round of `i` does. -/
def addColumn (i : Nat) (v : Nat → Residue) (j : Nat) : Residue :=
  if j < i then v j + v i else v j

/-- What the matrix `w[i]` does. -/
def advance (M : Nat) : Nat → (Nat → Residue) → Nat → Residue
  | 0, v => v
  | i + 1, v => addColumn (i + 1) ((advance M i)^[M] v)

/-- The sum of no column is the vector itself. -/
theorem sums_zero (v : Nat → Residue) : sums 0 v = v := by
  funext j
  rw [sums]
  split
  · rename_i hj
    obtain rfl := Nat.le_zero.mp hj
    rw [Finset.sum_Ico_succ_top (Nat.le_refl 0), Finset.Ico_self, Finset.sum_empty, zero_add]
  · rfl

/-- Adding a column makes the next sum. -/
theorem addColumn_sums (i : Nat) (v : Nat → Residue) :
    addColumn (i + 1) (sums i v) = sums (i + 1) v := by
  have hlast : sums i v (i + 1) = v (i + 1) := if_neg (by omega)
  funext j
  rw [addColumn, hlast]
  rcases Nat.lt_trichotomy j (i + 1) with hlt | rfl | hgt
  · rw [if_pos hlt, sums, if_pos (by omega), sums, if_pos (by omega),
      Finset.sum_Ico_succ_top (show j ≤ i + 1 by omega)]
  · rw [if_neg (by omega), hlast, sums, if_pos (Nat.le_refl _),
      Finset.sum_Ico_succ_top (Nat.le_refl _), Finset.Ico_self, Finset.sum_empty, zero_add]
  · rw [if_neg (by omega), sums, if_neg (by omega), sums, if_neg (by omega)]

/-- `i` is a step of `M ^ i`, with the sums up to the digit `i`. -/
def Advances (M i : Nat) : Prop :=
  ∀ q, advance M i (ways M (q * M ^ i)) = sums i (ways M ((q + 1) * M ^ i - 1))

/-- The digit `i` is counted up. -/
theorem Advances.next (hM : 2 ≤ M) (h : Advances M i) {q : Nat} (hq : ¬M ∣ q + 1) :
    advance M i (ways M (q * M ^ i)) = ways M ((q + 1) * M ^ i) := by
  have hpos : 0 < M ^ i := Nat.pow_pos (by omega)
  have hstep : (q + 1) * M ^ i - 1 + 1 = (q + 1) * M ^ i :=
    Nat.sub_add_cancel (Nat.mul_pos (Nat.succ_pos q) hpos)
  have hnot : ¬M ^ (i + 1) ∣ (q + 1) * M ^ i := by
    rw [Nat.pow_succ', Nat.mul_dvd_mul_iff_right hpos]
    exact hq
  rw [h q, ← ways_succ hM (by rw [hstep]; exact Nat.dvd_mul_left _ _) (by rwa [hstep]), hstep]

/-- From 0 to a digit. -/
theorem Advances.iterate (hM : 2 ≤ M) (h : Advances M i) (q : Nat) {k : Nat} (hk : k < M) :
    (advance M i)^[k] (ways M (M * q * M ^ i)) = ways M ((M * q + k) * M ^ i) := by
  induction k with
  | zero => rfl
  | succ k ih =>
    have hdigit : ¬M ∣ M * q + k + 1 := by
      rw [Nat.add_assoc, Nat.dvd_add_right (Nat.dvd_mul_right M q)]
      exact fun hdvd => absurd (Nat.le_of_dvd (Nat.succ_pos k) hdvd) (by omega)
    rw [Function.iterate_succ_apply', ih (by omega), h.next hM hdigit, Nat.add_assoc]

/-- Every digit advances the numbers of partitions. -/
theorem advance_ways (hM : 2 ≤ M) (i : Nat) : Advances M i := by
  induction i with
  | zero =>
    intro q
    rw [advance, sums_zero, Nat.pow_zero, Nat.mul_one, Nat.mul_one, Nat.add_sub_cancel]
  | succ i ih =>
    intro q
    -- The last one of `M` steps is that of a carry.
    obtain ⟨k, rfl⟩ : ∃ k, M = k + 1 := ⟨M - 1, by omega⟩
    have hfirst : q * (k + 1) ^ (i + 1) = (k + 1) * q * (k + 1) ^ i := by
      rw [Nat.pow_succ', ← Nat.mul_assoc, Nat.mul_comm q]
    have hlast : ((k + 1) * q + k + 1) * (k + 1) ^ i = (q + 1) * (k + 1) ^ (i + 1) := by
      rw [Nat.pow_succ', ← Nat.mul_assoc, Nat.add_assoc, Nat.mul_comm (k + 1) q, Nat.add_mul]
      ring
    rw [advance, Function.iterate_succ_apply', hfirst, ih.iterate hM q (Nat.lt_succ_self k),
      ih ((k + 1) * q + k), addColumn_sums, hlast]

/-! ### The matrices -/

/-- The first entries as a vector. -/
def restrict (n : Nat) (v : Nat → Residue) : Fin n → Residue := fun j => v j

/-- The residues of the matrix `a` in the round of `i`. -/
def columnMatrix (n i : Nat) : Matrix (Fin n) (Fin n) Residue :=
  1 + Matrix.of fun j k => if k.val = i ∧ j.val < i then 1 else 0

/-- The residues of the matrix `w[i]`. -/
def weightMatrix (M n : Nat) : Nat → Matrix (Fin n) (Fin n) Residue
  | 0 => 1
  | i + 1 => columnMatrix n (i + 1) * weightMatrix M n i ^ M

/-- The matrix of a column adds it. -/
theorem columnMatrix_mulVec (hi : i < n) (v : Nat → Residue) :
    (columnMatrix n i).mulVec (restrict n v) = restrict n (addColumn i v) := by
  have hcolumn : ∀ j : Fin n,
      (Matrix.of fun j k : Fin n => if k.val = i ∧ j.val < i then (1 : Residue) else 0).mulVec
        (restrict n v) j = if j.val < i then v i else 0 := by
    intro j
    rw [Matrix.mulVec_eq_sum, Finset.sum_apply]
    by_cases hj : j.val < i
    · rw [if_pos hj, Finset.sum_eq_single ⟨i, hi⟩]
      · simp [hj, restrict]
      · intro k _ hk
        have hki : k.val ≠ i := fun h => hk (Fin.ext h)
        simp [hki]
      · exact fun h => absurd (Finset.mem_univ _) h
    · rw [if_neg hj]
      exact Finset.sum_eq_zero fun k _ => by simp [hj]
  funext j
  rw [columnMatrix, Matrix.add_mulVec, Matrix.one_mulVec, Pi.add_apply, hcolumn, restrict, restrict,
    addColumn]
  split
  · rfl
  · rw [add_zero]

/-- The power of a matrix does its step as many times. -/
theorem pow_mulVec {N : Matrix (Fin n) (Fin n) Residue} {f : (Nat → Residue) → Nat → Residue}
    (h : ∀ v, N.mulVec (restrict n v) = restrict n (f v)) (k : Nat) (v : Nat → Residue) :
    (N ^ k).mulVec (restrict n v) = restrict n (f^[k] v) := by
  induction k with
  | zero => rw [pow_zero, Matrix.one_mulVec, Function.iterate_zero_apply]
  | succ k ih =>
    rw [pow_succ', ← Matrix.mulVec_mulVec, ih, h, Function.iterate_succ_apply']

/-- The matrix of a weight advances the vector. -/
theorem weightMatrix_mulVec (hi : i < n) (v : Nat → Residue) :
    (weightMatrix M n i).mulVec (restrict n v) = restrict n (advance M i v) := by
  induction i generalizing v with
  | zero => rw [weightMatrix, Matrix.one_mulVec, advance]
  | succ i ih =>
    rw [weightMatrix, ← Matrix.mulVec_mulVec, pow_mulVec (fun v => ih (by omega) v),
      columnMatrix_mulVec hi, advance]

/-- `column` makes the matrix of a column. -/
theorem column_represents (hi : i < n) :
    ∃ a, column n i = some a ∧ Represents a (columnMatrix n i) := by
  obtain ⟨a, ha, hone⟩ := identify_represents n
  have hloop : ∃ data, forUpM 0 i (fun j data => store data (j * n + i) 1) a.data = some data ∧
      Holds data n n fun j k =>
        if k = i ∧ j < i then 1 else numbers (1 : Matrix (Fin n) (Fin n) Residue) j k := by
    refine forUpM_induct (P := fun l (data : Block) => Holds data n n fun j k =>
      if k = i ∧ j < l then 1 else numbers (1 : Matrix (Fin n) (Fin n) Residue) j k)
      (Nat.zero_le i) (hone.holds.congr fun j k _ _ => by rw [if_neg (by omega)]) ?_
    intro l data _ hl h
    obtain ⟨data', hstore, hholds⟩ := h.store (show l < n by omega) hi 1
    refine ⟨data', hstore, hholds.congr fun j k _ _ => ?_⟩
    split
    · rw [if_pos (by omega)]
    · refine if_congr ?_ rfl rfl
      omega
  obtain ⟨data, hrun, hholds⟩ := hloop
  refine ⟨{ a with data }, ?_, hone.rows, hone.columns, hholds.congr fun j k hj hk => ?_⟩
  · rw [column, ha, Option.bind_eq_bind, Option.bind_some, hrun]
    rfl
  · rw [numbers_of_lt hj hk, numbers_of_lt hj hk, columnMatrix, Matrix.add_apply, Matrix.of_apply]
    by_cases hcolumn : k = i ∧ j < i
    · -- This place is not on the diagonal.
      rw [if_pos hcolumn, if_pos hcolumn, Matrix.one_apply_ne (by simp; omega), zero_add,
        ZMod.val_one, Nat.cast_one]
    · rw [if_neg hcolumn, if_neg hcolumn, add_zero]

/-- The list has the matrices of these residues. -/
def HasWeights (M n i : Nat) (w : List PowerPartition.Matrix) : Prop :=
  w.length = i ∧ ∀ j, j < i → ∃ a, w[j]? = some a ∧ Represents a (weightMatrix M n j)

/-- `weights` makes the matrices of all weights. -/
theorem weights_represent (M : Nat) (hn : 1 ≤ n) :
    ∃ w, weights n M = some w ∧ HasWeights M n n w := by
  obtain ⟨first, hfirst, hone⟩ := identify_represents n
  rw [weights, hfirst, Option.bind_eq_bind, Option.bind_some]
  refine forUpM_induct (P := HasWeights M n) hn ⟨rfl, fun j hj => ?_⟩ ?_
  · obtain rfl : j = 0 := by omega
    exact ⟨first, rfl, hone⟩
  · rintro i w hi hin ⟨hlength, hw⟩
    obtain ⟨a, ha, hcolumn⟩ := column_represents hin
    obtain ⟨last, hlast, hweight⟩ := hw (i - 1) (by omega)
    obtain ⟨power, hpower, hpow⟩ := pow_represents hweight M
    obtain ⟨next, hnext, hmul⟩ := mul_represents hcolumn hpow
    refine ⟨w ++ [next], ?_, by simp [hlength], fun j hj => ?_⟩
    · rw [ha, List.getLast?_eq_getElem?, hlength, hlast, Option.bind_some, Option.bind_some, hpower,
        Option.bind_some, hnext]
      rfl
    · rcases Nat.lt_succ_iff_lt_or_eq.mp hj with hlt | rfl
      · obtain ⟨a, ha, hrep⟩ := hw j hlt
        exact ⟨a, by rw [List.getElem?_append_left (by omega), ha], hrep⟩
      · refine ⟨next, by rw [← hlength, List.getElem?_concat_length], ?_⟩
        obtain ⟨i, rfl⟩ : ∃ i, j = i + 1 := ⟨j - 1, by omega⟩
        exact hmul

/-! ### The digits -/

/-- The powers up to `X`, no more than 63 of them. -/
theorem powers_spec (hM : 2 ≤ M) {X x k : Nat} (hX : X < 2 ^ 63) (hx : 0 < x) (v : List Nat)
    (hpow : x = M ^ k) (hle : k = 0 ∨ x ≤ X) (hv : v = (List.range (k + 1)).map (M ^ ·)) :
    ∃ n, 1 ≤ n ∧ powers hM X hx v = some ((List.range n).map (M ^ ·)) ∧ X < M ^ n ∧ n ≤ 63 := by
  fun_induction powers hM X hx v generalizing k with
  | case1 x hx v hlt =>
    refine ⟨k + 1, by omega, by rw [hv], ?_, ?_⟩
    · rw [Nat.pow_succ, ← hpow, Nat.mul_comm]
      exact (Nat.div_lt_iff_lt_mul hx).mp hlt
    · rcases hle with rfl | hle
      · decide
      · have htwo : 2 ^ k < 2 ^ 63 :=
          calc 2 ^ k ≤ M ^ k := Nat.pow_le_pow_left hM k
            _ = x := hpow.symm
            _ ≤ X := hle
            _ < 2 ^ 63 := hX
        exact (Nat.pow_lt_pow_iff_right (by decide)).mp htwo
  | case2 x hx v hge ih =>
    have hnext : x * M ≤ X := by
      rw [Nat.mul_comm]
      exact (Nat.le_div_iff_mul_le hx).mp (by omega)
    have hsucc : x * M = M ^ (k + 1) := by rw [hpow, Nat.pow_succ]
    obtain ⟨n, hn, hrun, hbound⟩ := ih hsucc (.inr hnext) (by
      rw [hv, hsucc, List.range_succ (n := k + 1), List.map_append]
      rfl)
    refine ⟨n, hn, ?_, hbound⟩
    rw [int64_of_range ⟨by omega, by omega⟩, Option.bind_eq_bind, Option.bind_some, hrun]

/-- What the digits behind `i` have made. -/
def Counted (M n X i : Nat) (o : Option Digits) : Prop :=
  ∃ s B, o = some s ∧ s.X = X % M ^ i ∧ Represents s.b B ∧
    B.mulVec (restrict n (ways M 0)) = restrict n (ways M (X / M ^ i * M ^ i))

/-- A round of the digits counts one digit more. -/
theorem Counted.next {X : Nat} (hM : 2 ≤ M) {w : List PowerPartition.Matrix}
    (hw : HasWeights M n n w) (hi : i < n) {o : Option Digits} (h : Counted M n X (i + 1) o) :
    Counted M n X i (o.bind (digitRound ((List.range n).map (M ^ ·)) w i)) := by
  obtain ⟨s, B, rfl, hX, hB, hways⟩ := h
  obtain ⟨weight, hweight, hrep⟩ := hw.2 i hi
  have hvalue : ((List.range n).map (M ^ ·))[i]? = some (M ^ i) := by
    rw [List.getElem?_map, List.getElem?_range hi]
    rfl
  obtain ⟨power, hpower, hpow⟩ := pow_represents hrep (s.X / M ^ i)
  obtain ⟨b, hb, hmul⟩ := mul_represents hpow hB
  have hdigit : s.X / M ^ i = X / M ^ i % M := by
    rw [hX, Nat.pow_succ, Nat.mod_mul_right_div_self]
  have hdigits : M * (X / M ^ (i + 1)) + X / M ^ i % M = X / M ^ i := by
    rw [Nat.pow_succ, ← Nat.div_div_eq_div_mul, Nat.div_add_mod]
  have hbefore : X / M ^ (i + 1) * M ^ (i + 1) = M * (X / M ^ (i + 1)) * M ^ i := by
    rw [Nat.pow_succ', ← Nat.mul_assoc, Nat.mul_comm (X / (M * M ^ i))]
  refine ⟨⟨s.X % M ^ i, b⟩, _, ?_, ?_, hmul, ?_⟩
  · rw [Option.bind_some, digitRound, hvalue, hweight, Option.bind_eq_bind, Option.bind_some,
      Option.bind_eq_bind, Option.bind_some, hpower, Option.bind_some, hb]
    rfl
  · rw [hX]
    exact Nat.mod_mod_of_dvd X (pow_dvd_pow M (Nat.le_succ i))
  · rw [← Matrix.mulVec_mulVec, hways, pow_mulVec (fun v => weightMatrix_mulVec hi v), hbefore,
      hdigit, (advance_ways hM i).iterate hM _ (Nat.mod_lt _ (by omega)), hdigits]

/-- The loop over the digits counts the partitions of the number. -/
theorem digits_spec {X : Nat} (hM : 2 ≤ M) (hlt : X < M ^ n) {w : List PowerPartition.Matrix}
    (hw : HasWeights M n n w) {b : PowerPartition.Matrix}
    (hb : Represents b (1 : Matrix (Fin n) (Fin n) Residue)) :
    Counted M n X 0 (forDown 0 n (fun i o => o.bind (digitRound ((List.range n).map (M ^ ·)) w i))
      (some ⟨X, b⟩)) := by
  refine forDown_induct (P := Counted M n X) (Nat.zero_le n) ⟨⟨X, b⟩, 1, rfl, ?_, hb, ?_⟩ ?_
  · exact (Nat.mod_eq_of_lt hlt).symm
  · rw [Matrix.one_mulVec, Nat.div_eq_of_lt hlt, Nat.zero_mul]
  · intro i o _ hi h
    exact h.next hM hw hi

/-! ### The result -/

/-- The loop over the first row. -/
theorem firstRow_sum {b : PowerPartition.Matrix} {B : Matrix (Fin n) (Fin n) Residue}
    (hb : Represents b B) (hn : 0 < n) (hbound : n ≤ 63) :
    ∃ ans, forUpM 0 n (fun i ans => do
      let x ← load b.data i
      int64 (ans + x)) 0 = some ans ∧ 0 ≤ ans ∧
      (ans : Residue) = ∑ j, B ⟨0, hn⟩ j := by
  have hloop : ∃ ans, forUpM 0 n (fun i ans => do
      let x ← load b.data i
      int64 (ans + x)) 0 = some ans ∧ (0 ≤ ans ∧ ans ≤ n * mod) ∧
      (ans : Residue) = ∑ k ∈ Finset.range n, (numbers B 0 k : Residue) := by
    refine forUpM_induct (P := fun i ans => (0 ≤ ans ∧ ans ≤ i * mod) ∧
      (ans : Residue) = ∑ k ∈ Finset.range i, (numbers B 0 k : Residue)) (Nat.zero_le n) ?_ ?_
    · exact ⟨by decide, by rw [Finset.sum_range_zero, Int.cast_zero]⟩
    · rintro i ans - hi ⟨hans, hsum⟩
      have hload := hb.holds.load hn hi
      rw [Nat.zero_mul, Nat.zero_add] at hload
      have hnumber := numbers_reduced B 0 i hn hi
      have hmod : mod = 1000000007 := rfl
      -- Up to 63 residues do not overflow.
      rw [hmod] at hans hnumber ⊢
      rw [hload, Option.bind_eq_bind, Option.bind_some]
      refine ⟨_, int64_of_range ⟨by omega, by omega⟩, ⟨by omega, by push_cast; omega⟩, ?_⟩
      rw [Int.cast_add, hsum, Finset.sum_range_succ]
  obtain ⟨ans, hrun, hans, hsum⟩ := hloop
  refine ⟨ans, hrun, hans.1, ?_⟩
  rw [hsum, Finset.sum_range]
  refine Finset.sum_congr rfl fun k _ => ?_
  rw [numbers_of_lt hn k.isLt, Int.cast_natCast, ZMod.natCast_zmod_val]

/-- The result is the number of ways to write `X` as an unordered sum of powers of `M`, modulo
1000000007. -/
theorem count_eq (hM : 2 ≤ M) {X : Nat} (hX : X < 2 ^ 63) :
    count hM X = some ((numPowerSums M X % 1000000007 : Nat) : Int) := by
  obtain ⟨n, hn, hv, hlt, hbound⟩ := powers_spec hM hX Nat.one_pos [1] (k := 0) rfl (.inl rfl) rfl
  obtain ⟨w, hw, hweights⟩ := weights_represent M hn
  obtain ⟨b, hb, hone⟩ := identify_represents n
  obtain ⟨s, B, hs, -, hB, hways⟩ := digits_spec hM hlt hweights hone
  obtain ⟨ans, hans, hnonneg, hsum⟩ := firstRow_sum hB hn hbound
  rw [Nat.pow_zero, Nat.div_one, Nat.mul_one, ways_zero hM] at hways
  -- The vector for 0 has only ones, and so the first row has the first entry as its sum.
  have hfirst : (ans : Residue) = (numPowerSums M X : Residue) := by
    have hrow := congrFun hways ⟨0, hn⟩
    rw [restrict, ways, Nat.pow_zero, Nat.div_one, Matrix.mulVec_eq_sum, Finset.sum_apply] at hrow
    rw [hsum, ← hrow]
    refine Finset.sum_congr rfl fun k _ => ?_
    simp [restrict]
  rw [count, hv, Option.bind_eq_bind, Option.bind_some, List.length_map, List.length_range]
  dsimp only
  rw [hw, Option.bind_eq_bind, Option.bind_some, hb, Option.bind_eq_bind, Option.bind_some, hs,
    Option.bind_eq_bind, Option.bind_some, hans, Option.bind_eq_bind, Option.bind_some,
    tmod_mod hnonneg, hfirst, ZMod.val_natCast]

/-- The number of `main`: 1000001 with the powers of 1000. -/
theorem count_eq_main : count (show 2 ≤ 1000 by decide) 1000001
    = some ((numPowerSums 1000 1000001 % 1000000007 : Nat) : Int) :=
  count_eq (by decide) (by decide)

end LearnGit.Proofs.DynamicProgramming.PowerPartition
