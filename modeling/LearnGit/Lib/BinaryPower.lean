import Mathlib.Algebra.Group.Basic
import Mathlib.Tactic.Common

/-!
# `LearnGit.Lib.BinaryPower`: powers by squaring

`powerLoop mul ans a n` consumes the binary digits of `n`, the lowest one first. `ans` is multiplied
by `a` where the digit is 1, and `a` is squared in every round. A multiplication may be undefined.

The operands stand for elements of a monoid. `powerLoop_spec`: where multiplication is the one of
the monoid, the result stands for `ans * a ^ n`.
-/

set_option autoImplicit false

namespace LearnGit.Lib

variable {σ : Type}

/-- `while(n) { if(n & 1) ans = ans * a; a = a * a; n >>= 1; }`. -/
def powerLoop (mul : σ → σ → Option σ) (ans a : σ) (n : Nat) : Option σ :=
  if _h : 0 < n then
    (if n % 2 = 1 then mul ans a else some ans).bind fun ans =>
      (mul a a).bind fun a => powerLoop mul ans a (n / 2)
  else some ans
termination_by n

/-- The loop has no round for 0. -/
theorem powerLoop_zero (mul : σ → σ → Option σ) (ans a : σ) :
    powerLoop mul ans a 0 = some ans := by
  rw [powerLoop, dif_neg (by omega)]

/-- Every round squares, the last one too. -/
theorem powerLoop_of_square_none {mul : σ → σ → Option σ} {a : σ} (h : mul a a = none) (ans : σ)
    {n : Nat} (hn : 0 < n) : powerLoop mul ans a n = none := by
  rw [powerLoop, dif_pos hn, h]
  cases (if n % 2 = 1 then mul ans a else some ans) <;> rfl

/-- The result stands for `x * y ^ n`. `R` is the relation for `ans`, and `S` the one for `a`. -/
theorem powerLoop_spec {M : Type} [Monoid M] (mul : σ → σ → Option σ) {R S : σ → M → Prop}
    (hmul : ∀ {s t x y}, R s x → S t y → ∃ u, mul s t = some u ∧ R u (x * y))
    (hsquare : ∀ {t y}, S t y → ∃ u, mul t t = some u ∧ S u (y * y)) (n : Nat) :
    ∀ {ans a : σ} {x y : M}, R ans x → S a y →
      ∃ u, powerLoop mul ans a n = some u ∧ R u (x * y ^ n) := by
  induction n using Nat.strongRecOn with
  | ind n ih =>
    intro ans a x y hans ha
    rw [powerLoop]
    split
    · rename_i hn
      obtain ⟨a', hsq, ha'⟩ := hsquare ha
      have hpow : y ^ n = y ^ (n % 2) * (y * y) ^ (n / 2) := by
        rw [← pow_two, ← pow_mul, ← pow_add, Nat.mod_add_div]
      -- The power is split at the lowest digit of `n`.
      have hdigit : ∃ ans', (if n % 2 = 1 then mul ans a else some ans) = some ans' ∧
          R ans' (x * y ^ (n % 2)) := by
        rcases Nat.mod_two_eq_zero_or_one n with hzero | hone
        · rw [if_neg (by omega), hzero, pow_zero, mul_one]
          exact ⟨ans, rfl, hans⟩
        · rw [if_pos hone, hone, pow_one]
          exact hmul hans ha
      obtain ⟨ans', hans', hrel⟩ := hdigit
      rw [hans', hsq, hpow, ← mul_assoc]
      exact ih (n / 2) (by omega) hrel ha'
    · rename_i hn
      obtain rfl : n = 0 := by omega
      rw [pow_zero, mul_one]
      exact ⟨ans, rfl, hans⟩

end LearnGit.Lib
