import Mathlib
import LearnGit.DynamicProgramming.MatrixStudy

/-!
# `LearnGit.Proofs.DynamicProgramming.MatrixStudy`: what the loops over binary digits return

* `fastPower_right_iff`: `fast_power` is right as long as the square of its argument is a
  `long long`, because the argument is squared before it is reduced.
* `getAnswer_right_iff`: `getAnswer` is right where it calls no `operator=`, and undefined for every
  greater number.
* `getAnswer_returning_iff`: with an `operator=` that returns, the last sum is still not reduced, and
  so the output is right where it does not reach the modulus.

The loops are instances of `powerLoop_spec`, over `ZMod Max` and over the matrices of `ZMod 10000`.
-/

set_option autoImplicit false

namespace LearnGit.Proofs.DynamicProgramming.MatrixStudy

/-- The matrices of residues. -/
abbrev Residues := Matrix (Fin 2) (Fin 2) (ZMod 10000)

open LearnGit.Lib
open LearnGit.DynamicProgramming.MatrixStudy

/-! ### The fast power -/

/-- The greatest argument whose square is a `long long`. -/
def SQRT_MAX : Int := 3037000499

/-- A number that stands for a residue. -/
def Stands (bound s : Int) (z : ZMod 10000001) : Prop :=
  0 ≤ s ∧ s ≤ bound ∧ (s : ZMod 10000001) = z

/-- A square is a 64-bit number exactly up to the root of the greatest one. -/
theorem square_range_iff {s : Int} (h : 0 ≤ s) : Int64Range (s * s) ↔ s ≤ SQRT_MAX := by
  constructor
  · intro hrange
    by_contra hlarge
    have hsquare : (SQRT_MAX + 1) * (SQRT_MAX + 1) ≤ s * s :=
      Int.mul_le_mul (by omega) (by omega) (by decide) h
    have hover : ¬(SQRT_MAX + 1) * (SQRT_MAX + 1) < 2 ^ 63 := by decide
    exact hover (lt_of_le_of_lt hsquare hrange.2)
  · intro hle
    have hsquare : s * s ≤ SQRT_MAX * SQRT_MAX := Int.mul_le_mul hle hle h (by decide)
    have hunder : SQRT_MAX * SQRT_MAX < 2 ^ 63 := by decide
    exact ⟨le_trans (by decide) (Int.mul_nonneg h h), lt_of_le_of_lt hsquare hunder⟩

/-- The product of two residues is the residue of their product. -/
theorem mulMax_stands {s t : Int} {x y : ZMod 10000001} (hs : Stands SQRT_MAX s x)
    (ht : Stands SQRT_MAX t y) : ∃ u, mulMax s t = some u ∧ Stands (MAX - 1) u (x * y) := by
  obtain ⟨hs0, hs1, rfl⟩ := hs
  obtain ⟨ht0, ht1, rfl⟩ := ht
  have hle : s * t ≤ SQRT_MAX * SQRT_MAX := Int.mul_le_mul hs1 ht1 ht0 (by decide)
  have hpos : 0 ≤ s * t := Int.mul_nonneg hs0 ht0
  have hrange : Int64Range (s * t) :=
    ⟨le_trans (by decide) hpos, lt_of_le_of_lt hle (by decide)⟩
  have hmod : (s * t).tmod MAX = s * t % MAX := Int.tmod_eq_emod_of_nonneg hpos
  have hhigh : s * t % MAX < MAX := Int.emod_lt_of_pos _ (by decide)
  refine ⟨s * t % MAX, ?_, Int.emod_nonneg _ (by decide), by omega, ?_⟩
  · rw [mulMax, int64_of_range hrange, Option.map_some, hmod]
  · rw [← Int.cast_mul]
    exact ZMod.intCast_mod _ 10000001

/-- A residue is below every bound that is not less than the modulus less 1. -/
theorem Stands.mono {bound s : Int} {z : ZMod 10000001} (h : Stands (MAX - 1) s z)
    (hb : MAX - 1 ≤ bound) : Stands bound s z :=
  ⟨h.1, le_trans h.2.1 hb, h.2.2⟩

/-- The residue is the number itself. -/
theorem Stands.eq_mod {s x : Int} (h : Stands (MAX - 1) s (x : ZMod 10000001)) : s = x % MAX := by
  obtain ⟨h0, h1, hcast⟩ := h
  have hmod : s % MAX = x % MAX := (ZMod.intCast_eq_intCast_iff' s x 10000001).mp hcast
  rw [← hmod, Int.emod_eq_of_lt h0 (by omega)]

/-- The loop returns the power. -/
theorem normalPower_eq (x : Int) (n : Nat) : normalPower x n = x ^ n := by
  fun_induction normalPower x n with
  | case1 => rw [pow_zero]
  | case2 => rw [pow_one]
  | case3 n ih => rw [ih, ← pow_succ']

/-- Up to the root of the greatest number the function returns the residue of the power. -/
theorem fastPower_eq {x : Int} (h0 : 0 ≤ x) (h1 : x ≤ SQRT_MAX) (n : Nat) :
    fastPower x n = some (x ^ n % MAX) := by
  have hone : Stands (MAX - 1) 1 1 := ⟨by decide, by decide, Int.cast_one⟩
  obtain ⟨u, hu, hstands⟩ := powerLoop_spec mulMax (R := Stands (MAX - 1))
    -- The result is always reduced, and the base is so from the first square on.
    (S := Stands SQRT_MAX) (fun hs ht => mulMax_stands (hs.mono (by decide)) ht)
    (fun ht => by
      obtain ⟨u, hu, hstands⟩ := mulMax_stands ht ht
      exact ⟨u, hu, hstands.mono (by decide)⟩)
    n hone ⟨h0, h1, rfl⟩
  rw [one_mul, ← Int.cast_pow] at hstands
  rw [fastPower, Int.toNat_natCast, hu, hstands.eq_mod]

/-- `fast_power` returns the power, which is the one of `normal_power` reduced at the end. A product
that overflows makes the run undefined. -/
def PowerRight (x n : Nat) : Prop :=
  fastPower x n = some ((x : Int) ^ n % MAX) ∧ (x : Int) ^ n % MAX = normalPower x n % MAX

/-- The argument is squared before it is reduced, and so its square has to be a `long long`. Without
a round there is no square. -/
theorem fastPower_right_iff (x n : Nat) : PowerRight x n ↔ n = 0 ∨ x ≤ 3037000499 := by
  constructor
  · rintro ⟨hright, -⟩
    by_contra hnot
    rw [not_or] at hnot
    -- The square of the first round overflows.
    have hrange : ¬Int64Range ((x : Int) * x) := by
      rw [square_range_iff (Int.natCast_nonneg x), SQRT_MAX]
      omega
    have hnone : mulMax x x = none := by
      rw [mulMax, int64, if_neg hrange]
      rfl
    rw [fastPower, Int.toNat_natCast, powerLoop_of_square_none hnone 1 (by omega)] at hright
    cases hright
  · intro h
    refine ⟨?_, by rw [normalPower_eq]⟩
    rcases h with rfl | hx
    · rw [fastPower, pow_zero]
      exact powerLoop_zero mulMax 1 x
    · refine fastPower_eq (Int.natCast_nonneg x) ?_ n
      rw [SQRT_MAX]
      omega

/-- `fun(3037000500, 1)` squares 3037000500. -/
theorem fastPower_overflow : ¬PowerRight 3037000500 1 := by
  rintro ⟨hright, -⟩
  have hnone : mulMax 3037000500 3037000500 = none := by decide
  have hrun := powerLoop_of_square_none hnone 1 Nat.one_pos
  rw [show fastPower ((3037000500 : Nat) : Int) ((1 : Nat) : Int)
    = powerLoop mulMax 1 3037000500 1 from rfl, hrun] at hright
  cases hright

/-! ### The Fibonacci numbers -/

/-- A number below the modulus. -/
def Reduced (s : Int) : Prop := 0 ≤ s ∧ s < 10000

instance (s : Int) : Decidable (Reduced s) := inferInstanceAs (Decidable (_ ∧ _))

/-- A matrix with entries below the modulus, and the matrix of their residues. -/
structure Represents (m : Matrix) (z : Residues) : Prop where
  a : Reduced m.a
  b : Reduced m.b
  c : Reduced m.c
  d : Reduced m.d
  residues : !![(m.a : ZMod 10000), (m.b : ZMod 10000); (m.c : ZMod 10000), (m.d : ZMod 10000)] = z

/-- C's remainder of a sum of two products of residues is a residue. -/
theorem reduced_tmod {s t u v : Int} (hs : Reduced s) (ht : Reduced t) (hu : Reduced u)
    (hv : Reduced v) : Reduced ((s * t + u * v).tmod 10000) ∧
      (((s * t + u * v).tmod 10000 : Int) : ZMod 10000) = s * t + u * v := by
  have hpos : 0 ≤ s * t + u * v :=
    Int.add_nonneg (Int.mul_nonneg hs.1 ht.1) (Int.mul_nonneg hu.1 hv.1)
  rw [Int.tmod_eq_emod_of_nonneg hpos]
  refine ⟨⟨Int.emod_nonneg _ (by decide), Int.emod_lt_of_pos _ (by decide)⟩, ?_⟩
  rw [← Int.cast_mul, ← Int.cast_mul, ← Int.cast_add]
  exact ZMod.intCast_mod _ 10000

/-- The product of two matrices stands for the product of what they stand for. -/
theorem Represents.mul {m n : Matrix} {y z : Residues} (hm : Represents m y)
    (hn : Represents n z) : Represents (m.mul n) (y * z) := by
  obtain ⟨ha, hac⟩ := reduced_tmod hm.a hn.a hm.b hn.c
  obtain ⟨hb, hbc⟩ := reduced_tmod hm.a hn.b hm.b hn.d
  obtain ⟨hc, hcc⟩ := reduced_tmod hm.c hn.a hm.d hn.c
  obtain ⟨hd, hdc⟩ := reduced_tmod hm.c hn.b hm.d hn.d
  refine ⟨ha, hb, hc, hd, ?_⟩
  rw [← hm.residues, ← hn.residues, Matrix.mul_fin_two, Matrix.mul, hac, hbc, hcc, hdc]

/-- The powers of the matrix hold three Fibonacci numbers in a row. -/
theorem fibonacci_pow (n : Nat) : (!![1, 1; 1, 0] : Residues) ^ (n + 1)
    = !![(Nat.fib (n + 2) : ZMod 10000), (Nat.fib (n + 1) : ZMod 10000);
      (Nat.fib (n + 1) : ZMod 10000), (Nat.fib n : ZMod 10000)] := by
  induction n with
  | zero => simp
  | succ n ih =>
    rw [pow_succ, ih, Matrix.mul_fin_two, Nat.fib_add_two (n := n + 1), Nat.fib_add_two (n := n)]
    push_cast
    simp only [mul_one, mul_zero, add_zero]
    rw [add_comm (Nat.fib n + Nat.fib (n + 1) : ZMod 10000) (Nat.fib (n + 1)),
      add_comm (Nat.fib n : ZMod 10000) (Nat.fib (n + 1))]

/-- A residue is the remainder of every number it is congruent to. -/
theorem eq_mod_of_cast {s : Int} {k : Nat} (hs : Reduced s)
    (h : (s : ZMod 10000) = (k : ZMod 10000)) : s = (k : Int) % 10000 := by
  have hmod : s % 10000 = (k : Int) % 10000 :=
    (ZMod.intCast_eq_intCast_iff' s k 10000).mp (by rw [h, Int.cast_natCast])
  rw [← hmod, Int.emod_eq_of_lt hs.1 hs.2]

/-- The two entries that `getAnswer` adds. -/
theorem power_fibonacci (n : Nat) : ∃ ans,
    power Matrix.assignReturning ⟨1, 1, 1, 0⟩ (n + 1) = some ans ∧
    ans.a = (Nat.fib (n + 2) : Int) % 10000 ∧ ans.b = (Nat.fib (n + 1) : Int) % 10000 := by
  have hident : Represents ⟨1, 0, 0, 1⟩ 1 := by
    refine ⟨by decide, by decide, by decide, by decide, ?_⟩
    rw [Int.cast_one, Int.cast_zero, Matrix.one_fin_two]
  have hstart : Represents ⟨1, 1, 1, 0⟩ !![1, 1; 1, 0] := by
    refine ⟨by decide, by decide, by decide, by decide, ?_⟩
    rw [Int.cast_one, Int.cast_zero]
  obtain ⟨ans, hans, hrep⟩ := powerLoop_spec (fun m a => m.assignReturning (m.mul a))
    (fun hm hn => ⟨_, rfl, hm.mul hn⟩) (fun hm => ⟨_, rfl, hm.mul hm⟩) (n + 1) hident hstart
  rw [one_mul, fibonacci_pow] at hrep
  have ha := congrFun (congrFun hrep.residues 0) 0
  have hb := congrFun (congrFun hrep.residues 0) 1
  exact ⟨ans, hans, eq_mod_of_cast hrep.a ha, eq_mod_of_cast hrep.b hb⟩

/-- What `getAnswer` prints from the third number on, with an `operator=` that returns. -/
theorem getAnswer_returning (n : Nat) : getAnswer Matrix.assignReturning ((n + 3 : Nat) : Int)
    = some ((Nat.fib (n + 2) : Int) % 10000 + (Nat.fib (n + 1) : Int) % 10000) := by
  obtain ⟨ans, hans, ha, hb⟩ := power_fibonacci n
  have hexp : (((n + 3 : Nat) : Int) - 2).toNat = n + 1 := by omega
  rw [getAnswer, if_neg (by omega), if_neg (by omega), if_neg (by omega), hexp, hans, ← ha, ← hb]
  rfl

/-- The output is the `n`-th Fibonacci number modulo 10000. -/
def AnswerRight (assign : Matrix → Matrix → Option Matrix) (n : Nat) : Prop :=
  getAnswer assign n = some ((Nat.fib n % 10000 : Nat) : Int)

/-- The first numbers are returned without a power. -/
theorem answerRight_of_le (assign : Matrix → Matrix → Option Matrix) {n : Nat} (hn : n ≤ 2) :
    AnswerRight assign n := by
  rcases n with _ | _ | _ | n
  · rfl
  · rfl
  · rfl
  · omega

/-- The two entries are reduced, and their sum is not. It is right where there is no carry. -/
theorem getAnswer_returning_iff (n : Nat) : AnswerRight Matrix.assignReturning n ↔
    n ≤ 2 ∨ Nat.fib (n - 1) % 10000 + Nat.fib (n - 2) % 10000 < 10000 := by
  rcases Nat.lt_or_ge 2 n with hn | hn
  · -- The sum of two residues is reduced where it is below the modulus.
    obtain ⟨k, rfl⟩ : ∃ k, n = k + 3 := ⟨n - 3, by omega⟩
    have hfib : Nat.fib (k + 3) = Nat.fib (k + 1) + Nat.fib (k + 2) := Nat.fib_add_two
    rw [AnswerRight, getAnswer_returning, Option.some_inj, hfib,
      show k + 3 - 1 = k + 2 from rfl, show k + 3 - 2 = k + 1 from rfl]
    omega
  · exact iff_of_true (answerRight_of_le _ hn) (.inl hn)

/-- `power` squares in its first round, and assigns the square. -/
theorem power_undefined (m : Matrix) {n : Nat} (hn : 0 < n) : power Matrix.assign m n = none :=
  powerLoop_of_square_none rfl _ hn

/-- The run is undefined from the third number on. -/
theorem getAnswer_undefined {n : Nat} (hn : 2 < n) : getAnswer Matrix.assign n = none := by
  rw [getAnswer, if_neg (by omega), if_neg (by omega), if_neg (by omega),
    power_undefined _ (by omega)]
  rfl

/-- The output is right for the numbers that no matrix is assigned for. -/
theorem getAnswer_right_iff (n : Nat) : AnswerRight Matrix.assign n ↔ n ≤ 2 := by
  constructor
  · intro h
    by_contra hn
    rw [AnswerRight, getAnswer_undefined (by omega)] at h
    exact nomatch h
  · exact answerRight_of_le _

/-- The third number takes one round of `power`. -/
theorem getAnswer_three : ¬AnswerRight Matrix.assign 3 := by
  intro h
  rw [AnswerRight, getAnswer_undefined (by decide)] at h
  exact nomatch h

end LearnGit.Proofs.DynamicProgramming.MatrixStudy
