import LearnGit.Proofs.DynamicProgramming.ModularMatrix
import Mathlib.LinearAlgebra.Matrix.Notation

/-!
# `LearnGit.Proofs.DynamicProgramming.MatrixOperators`: products and powers modulo `mod`

`operators_modular`: for two square matrices of any size with entries from 0 to `mod - 1`, the three
operators return the product and the power of the integer matrices, reduced modulo `mod`, and the
sum in a product stays below `2 ^ 63`.

A matrix that stores integers represents their residues (`Stores.represents`), and one that
represents residues stores the least numbers of them (`Represents.stores`).
-/

set_option autoImplicit false

namespace LearnGit.Proofs.DynamicProgramming.PowerPartition

open LearnGit.Lib
open LearnGit.DynamicProgramming
open LearnGit.DynamicProgramming.PowerPartition hiding Matrix

variable {n : Nat} {a b : PowerPartition.Matrix} {N P : Matrix (Fin n) (Fin n) Int}

/-- The square matrix has these entries, which are reduced. -/
structure Stores (a : PowerPartition.Matrix) (N : Matrix (Fin n) (Fin n) Int) : Prop where
  rows : a.n = n
  columns : a.m = n
  size : a.data.size = n * n
  cell : ∀ i j : Fin n, a.data.cell (i * n + j) = some (N i j)
  reduced : ∀ i j, 0 ≤ N i j ∧ N i j < mod

/-- The residues of the entries. -/
def residues (N : Matrix (Fin n) (Fin n) Int) : Matrix (Fin n) (Fin n) Residue :=
  N.map fun x => (x : Residue)

/-- The entries modulo `mod`. -/
def reduce (N : Matrix (Fin n) (Fin n) Int) : Matrix (Fin n) (Fin n) Int :=
  N.map fun x => x % mod

/-- The residues of a product are the product of the residues. -/
theorem residues_mul (N P : Matrix (Fin n) (Fin n) Int) :
    residues (N * P) = residues N * residues P :=
  Matrix.map_mul (f := Int.castRingHom Residue)

/-- The residues of the unit matrix are the unit matrix. -/
theorem residues_one : residues (1 : Matrix (Fin n) (Fin n) Int) = 1 :=
  Matrix.map_one _ Int.cast_zero Int.cast_one

/-- The residues of a power are the power of the residues. -/
theorem residues_pow (N : Matrix (Fin n) (Fin n) Int) (x : Nat) :
    residues (N ^ x) = residues N ^ x := by
  induction x with
  | zero => rw [pow_zero, pow_zero, residues_one]
  | succ x ih => rw [pow_succ, residues_mul, ih, pow_succ]

/-- The numbers of the residues are the reduced entries. -/
theorem numbers_residues (N : Matrix (Fin n) (Fin n) Int) {i j : Nat} (hi : i < n) (hj : j < n) :
    numbers (residues N) i j = reduce N ⟨i, hi⟩ ⟨j, hj⟩ := by
  rw [numbers_of_lt hi hj, residues, Matrix.map_apply, ZMod.val_intCast, reduce, Matrix.map_apply]
  rfl

/-- What is stored is reduced. -/
theorem Stores.reduce_eq (h : Stores a N) : reduce N = N := by
  ext i j
  obtain ⟨h0, hmod⟩ := h.reduced i j
  exact Int.emod_eq_of_lt h0 hmod

/-- A matrix that is stored stands for its residues. -/
theorem Stores.represents (h : Stores a N) : Represents a (residues N) := by
  refine ⟨h.rows, h.columns, h.size, fun i j hi hj => ?_⟩
  rw [numbers_residues N hi hj, h.reduce_eq]
  exact h.cell ⟨i, hi⟩ ⟨j, hj⟩

/-- What stands for the residues of a matrix stores the matrix reduced. -/
theorem Represents.stores (h : Represents a (residues N)) : Stores a (reduce N) := by
  refine ⟨h.rows, h.columns, h.holds.size, fun i j => ?_, fun i j => ?_⟩
  · rw [h.holds.cell i j i.isLt j.isLt, numbers_residues N i.isLt j.isLt]
  · exact ⟨Int.emod_nonneg _ (by decide), Int.emod_lt_of_pos _ (by decide)⟩

/-- The sum before a round, and the sum in it. -/
theorem Stores.sum_bounded (ha : Stores a N) (hb : Stores b P) {tmp : Block}
    (htmp : transpose n n b.data = some tmp) (i j k : Fin n) :
    ∃ sum, forUpM 0 k (sumRound a.data tmp (i * n) (j * n)) 0 = some sum ∧
      (0 ≤ sum ∧ sum < mod2) ∧ sum + N i k * P k j < 2 ^ 63 := by
  obtain ⟨tmp', htmp', hcolumns⟩ := transpose_holds hb.represents.holds
  obtain rfl : tmp' = tmp := Option.some.inj (htmp'.symm.trans htmp)
  obtain ⟨sum, hrun, hsum, -⟩ := sum_inner ha.represents.holds hcolumns (numbers_reduced _)
    (fun i j hi hj => numbers_reduced _ j i hj hi) i.isLt j.isLt k.isLt.le
  refine ⟨sum, hrun, hsum, ?_⟩
  have hproduct := mul_range (ha.reduced i k) (hb.reduced k j)
  have hmod2 : mod2 = 1000000014000000049 := by decide
  rw [hmod2] at hsum hproduct
  omega

/-- The operators return the product and the power modulo `mod`, with reduced entries again. Before
every round of the innermost loop the sum is below `mod2`, and no round takes it to `2 ^ 63`. -/
theorem operators_modular (ha : Stores a N) (hb : Stores b P) :
    (∃ c, a.mul b = some c ∧ Stores c (reduce (N * P)))
      ∧ (∃ c, a.mulAssign b = some c ∧ Stores c (reduce (N * P)))
      ∧ (∀ x, ∃ c, a.pow x = some c ∧ Stores c (reduce (N ^ x)))
      ∧ ∃ tmp, transpose n n b.data = some tmp ∧ ∀ i j k : Fin n,
        ∃ sum, forUpM 0 k (sumRound a.data tmp (i * n) (j * n)) 0 = some sum ∧
          (0 ≤ sum ∧ sum < mod2) ∧ sum + N i k * P k j < 2 ^ 63 := by
  refine ⟨?_, ?_, fun x => ?_, ?_⟩
  · obtain ⟨c, hc, hrep⟩ := mul_represents ha.represents hb.represents
    rw [← residues_mul] at hrep
    exact ⟨c, hc, hrep.stores⟩
  · obtain ⟨c, hc, hrep⟩ := mulAssign_represents ha.represents hb.represents
    rw [← residues_mul] at hrep
    exact ⟨c, hc, hrep.stores⟩
  · obtain ⟨c, hc, hrep⟩ := pow_represents ha.represents x
    rw [← residues_pow] at hrep
    exact ⟨c, hc, hrep.stores⟩
  · obtain ⟨tmp, htmp, -⟩ := transpose_holds hb.represents.holds
    exact ⟨tmp, htmp, fun i j k => ha.sum_bounded hb htmp i j k⟩

/-- The matrix of 2 rows with these entries. -/
def twoRows (x y z w : Int) : PowerPartition.Matrix :=
  ⟨2, 2, ⟨4, fun k => [some x, some y, some z, some w].getD k none⟩⟩

/-- A matrix with the largest entry. -/
theorem operators_modular_two : ∃ c, (twoRows 1000000006 1 0 3).mul (twoRows 2 1 0 1) = some c ∧
    Stores c (reduce (!![1000000006, 1; 0, 3] * !![2, 1; 0, 1])) := by
  have ha : Stores (twoRows 1000000006 1 0 3) !![1000000006, 1; 0, 3] := by
    refine ⟨rfl, rfl, rfl, by decide, ?_⟩
    simp [Fin.forall_fin_two, mod]
  have hb : Stores (twoRows 2 1 0 1) !![2, 1; 0, 1] := by
    refine ⟨rfl, rfl, rfl, by decide, ?_⟩
    simp [Fin.forall_fin_two, mod]
  exact (operators_modular ha hb).1

end LearnGit.Proofs.DynamicProgramming.PowerPartition
