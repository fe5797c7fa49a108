import Mathlib.Algebra.Order.BigOperators.Group.List
import Mathlib.Algebra.Order.Ring.Int
import Mathlib.Order.Bounds.Basic
import Mathlib.Tactic.Common
import Mathlib.Tactic.Ring

/-!
# `LearnGit.Lib.Parts`: the greatest value of a sum of parts

`PartsOf P n l` says that `l` is a list of parts, all of them in `P`, that sum to `n`. Each part has
a value. `isGreatest_totals` is the rule for the greatest total: a function of `n` that no first
part exceeds, and that some first part attains.

`byPeriod m T base` is a function that grows by `T` with every `m`. For such a function the
conditions of the rule are a table to be checked (`isGreatest_byPeriod`).
-/

set_option autoImplicit false

namespace LearnGit.Lib

variable {α : Type} [AddCommMonoid α] {P : Nat → Prop} {v : Nat → α} {best : Nat → α}

/-- A list of parts from `P` with this sum. -/
def PartsOf (P : Nat → Prop) (n : Nat) (l : List Nat) : Prop := (∀ p ∈ l, P p) ∧ l.sum = n

/-- The totals of the lists of parts. -/
def totals (P : Nat → Prop) (v : Nat → α) (n : Nat) : Set α :=
  {t | ∃ l, PartsOf P n l ∧ (l.map v).sum = t}

/-- Nothing is in no parts. -/
theorem PartsOf.nil : PartsOf P 0 [] := ⟨fun _ h => absurd h List.not_mem_nil, rfl⟩

/-- One part more. -/
theorem PartsOf.cons {p n : Nat} {l : List Nat} (hp : P p) (h : PartsOf P n l) :
    PartsOf P (p + n) (p :: l) := by
  refine ⟨?_, by rw [List.sum_cons, h.2]⟩
  intro q hq
  rcases List.mem_cons.mp hq with rfl | hq
  · exact hp
  · exact h.1 q hq

/-- Parts of two numbers are parts of their sum. -/
theorem PartsOf.append {i j : Nat} {l l' : List Nat} (h : PartsOf P i l) (h' : PartsOf P j l') :
    PartsOf P (i + j) (l ++ l') := by
  refine ⟨?_, by rw [List.sum_append, h.2, h'.2]⟩
  intro p hp
  exact (List.mem_append.mp hp).elim (h.1 p) (h'.1 p)

/-- Parts that attain a function. -/
theorem exists_parts (hzero : best 0 = 0)
    (hreach : ∀ n, 0 < n → ∃ p, P p ∧ 0 < p ∧ p ≤ n ∧ best n = v p + best (n - p)) (n : Nat) :
    ∃ l, PartsOf P n l ∧ (l.map v).sum = best n := by
  induction n using Nat.strongRecOn with
  | ind n ih =>
    rcases Nat.eq_zero_or_pos n with rfl | hn
    · exact ⟨[], PartsOf.nil, hzero.symm⟩
    · obtain ⟨p, hp, hpos, hle, heq⟩ := hreach n hn
      obtain ⟨l, hl, hsum⟩ := ih (n - p) (by omega)
      refine ⟨p :: l, ?_, ?_⟩
      · have hcons := hl.cons hp
        rwa [Nat.add_sub_of_le hle] at hcons
      · rw [List.map_cons, List.sum_cons, hsum, heq]

section
variable [PartialOrder α]

/-- Two lists of parts are one list. -/
theorem add_le_of_isGreatest {i j : Nat} {a b c : α} (hi : IsGreatest (totals P v i) a)
    (hj : IsGreatest (totals P v j) b) (h : IsGreatest (totals P v (i + j)) c) : a + b ≤ c := by
  obtain ⟨l, hl, rfl⟩ := hi.1
  obtain ⟨l', hl', rfl⟩ := hj.1
  exact h.2 ⟨l ++ l', hl.append hl', by rw [List.map_append, List.sum_append]⟩

variable [IsOrderedAddMonoid α]

/-- What no first part exceeds bounds every total. -/
theorem sum_map_le (hzero : 0 ≤ best 0) (hstep : ∀ p n, P p → v p + best n ≤ best (p + n))
    {n : Nat} {l : List Nat} (h : PartsOf P n l) : (l.map v).sum ≤ best n := by
  obtain ⟨hparts, rfl⟩ := h
  induction l with
  | nil => exact hzero
  | cons p l ih =>
    rw [List.map_cons, List.sum_cons, List.sum_cons]
    have hrest := ih fun q hq => hparts q (List.mem_cons_of_mem p hq)
    exact (add_le_add_right hrest (v p)).trans (hstep p _ (hparts p List.mem_cons_self))

/-- The rule for the greatest total. -/
theorem isGreatest_totals (hzero : best 0 = 0)
    (hstep : ∀ p n, P p → v p + best n ≤ best (p + n))
    (hreach : ∀ n, 0 < n → ∃ p, P p ∧ 0 < p ∧ p ≤ n ∧ best n = v p + best (n - p)) (n : Nat) :
    IsGreatest (totals P v n) (best n) := by
  refine ⟨exists_parts hzero hreach n, ?_⟩
  rintro t ⟨l, hl, rfl⟩
  exact sum_map_le hzero.ge hstep hl

end

/-! ### Functions with a period -/

section Period

variable {m : Nat} {T : Int} {base w : Nat → Int}

/-- A function that grows by `T` with every `m`. -/
def byPeriod (m : Nat) (T : Int) (base : Nat → Int) (n : Nat) : Int :=
  T * (n / m : Nat) + base (n % m)

/-- A period adds its value. -/
theorem byPeriod_add (hm : 0 < m) (q k : Nat) :
    byPeriod m T base (m * q + k) = T * q + byPeriod m T base k := by
  rw [byPeriod, byPeriod, Nat.mul_add_div hm, Nat.mul_add_mod]
  push_cast
  ring

/-- In the first period the values are those of the base. -/
theorem byPeriod_of_lt {r : Nat} (h : r < m) : byPeriod m T base r = base r := by
  rw [byPeriod, Nat.div_eq_of_lt h, Nat.mod_eq_of_lt h, Nat.cast_zero, mul_zero, zero_add]

/-- No first part exceeds the function where none does in the first periods. -/
theorem byPeriod_step (hm : 0 < m)
    (hstep : ∀ p, p ≤ m → 1 ≤ p → ∀ r, r < m → w p + base r ≤ byPeriod m T base (p + r))
    {p : Nat} (hp : 1 ≤ p ∧ p ≤ m) (n : Nat) :
    w p + byPeriod m T base n ≤ byPeriod m T base (p + n) := by
  have hsplit : m * (n / m) + n % m = n := Nat.div_add_mod n m
  have hr : n % m < m := Nat.mod_lt n hm
  rw [← hsplit, Nat.add_left_comm, byPeriod_add hm, byPeriod_add hm, byPeriod_of_lt hr]
  have := hstep p hp.2 hp.1 (n % m) hr
  omega

/-- A first part attains the function: one of the remainder, or a whole period. -/
theorem byPeriod_reach (hm : 0 < m) (hzero : base 0 = 0) (hT : w m = T)
    (hreach : ∀ r, r < m → 1 ≤ r → ∃ p, p ≤ r ∧ 1 ≤ p ∧ base r = w p + base (r - p))
    {n : Nat} (hn : 0 < n) : ∃ p, (1 ≤ p ∧ p ≤ m) ∧ 0 < p ∧ p ≤ n ∧
      byPeriod m T base n = w p + byPeriod m T base (n - p) := by
  have hsplit : m * (n / m) + n % m = n := Nat.div_add_mod n m
  have hr : n % m < m := Nat.mod_lt n hm
  rcases Nat.eq_zero_or_pos (n % m) with hrest | hrest
  · -- A multiple of the period is not below the period.
    obtain ⟨q, hq⟩ : ∃ q, n / m = q + 1 := by
      refine Nat.exists_eq_add_one_of_ne_zero fun hdiv => ?_
      rw [hdiv, hrest] at hsplit
      omega
    have hn' : n = m * q + m := by rw [← hsplit, hrest, hq, Nat.mul_succ, Nat.add_zero]
    have hm' : byPeriod m T base m = T := by
      rw [byPeriod, Nat.div_self hm, Nat.mod_self, hzero, Nat.cast_one, mul_one, add_zero]
    refine ⟨m, ⟨hm, Nat.le_refl m⟩, hm, by omega, ?_⟩
    rw [hn', Nat.add_sub_cancel, byPeriod_add hm, hm', hT, ← Nat.add_zero (m * q), byPeriod_add hm,
      byPeriod_of_lt hm, hzero]
    ring
  · obtain ⟨p, hle, hpos, heq⟩ := hreach _ hr hrest
    refine ⟨p, ⟨hpos, by omega⟩, hpos, by omega, ?_⟩
    have hsub : n - p = m * (n / m) + (n % m - p) := by omega
    rw [hsub, byPeriod_add hm, byPeriod_of_lt (show n % m - p < m by omega), byPeriod, heq]
    ring

/-- The greatest total of parts up to a period, where the tables are right. -/
theorem isGreatest_byPeriod (hm : 0 < m) (hzero : base 0 = 0) (hT : w m = T)
    (hstep : ∀ p, p ≤ m → 1 ≤ p → ∀ r, r < m → w p + base r ≤ byPeriod m T base (p + r))
    (hreach : ∀ r, r < m → 1 ≤ r → ∃ p, p ≤ r ∧ 1 ≤ p ∧ base r = w p + base (r - p)) (n : Nat) :
    IsGreatest (totals (fun p => 1 ≤ p ∧ p ≤ m) w n) (byPeriod m T base n) :=
  isGreatest_totals (by rw [byPeriod_of_lt hm, hzero]) (fun _ n hp => byPeriod_step hm hstep hp n)
    (fun _ hn => byPeriod_reach hm hzero hT hreach hn) n

end Period

end LearnGit.Lib
