import Mathlib.Algebra.BigOperators.Ring.Multiset
import Mathlib.Algebra.Order.BigOperators.Group.Multiset
import Mathlib.Data.Set.Card
import Mathlib.Tactic.Common

/-!
# `LearnGit.Lib.PowerSums`: sums of powers

`PowerSums M t` has the ways to write `t` as a sum of powers of `M`, where the order of the powers
does not matter. The number of ways grows by the ones that are multiples of the ways for a smaller
number: a way either has a 1 or has only powers that are divisible by `M` (`numPowerSums_succ`).
-/

set_option autoImplicit false

namespace LearnGit.Lib

/-- The multisets of powers of `M` with the sum `t`. -/
def PowerSums (M t : Nat) : Set (Multiset Nat) := {s | (∀ k ∈ s, ∃ e, k = M ^ e) ∧ s.sum = t}

/-- The number of ways to write `t` as an unordered sum of powers of `M`. -/
noncomputable def numPowerSums (M t : Nat) : Nat := (PowerSums M t).ncard

variable {M t : Nat} {s : Multiset Nat}

/-- Nothing is the only sum that is 0. -/
theorem powerSums_zero (hM : 2 ≤ M) : PowerSums M 0 = {0} := by
  ext s
  constructor
  · rintro ⟨hpow, hsum⟩
    rw [Set.mem_singleton_iff, Multiset.eq_zero_iff_forall_notMem]
    intro k hk
    obtain ⟨e, rfl⟩ := hpow k hk
    have hzero := Multiset.sum_eq_zero_iff.mp hsum _ hk
    exact absurd hzero (Nat.pow_pos (by omega)).ne'
  · rintro rfl
    exact ⟨fun k hk => absurd hk (Multiset.notMem_zero k), Multiset.sum_zero⟩

/-- The ways that have a 1. -/
theorem powerSums_with_one (M t : Nat) :
    {s ∈ PowerSums M (t + 1) | 1 ∈ s} = Multiset.cons 1 '' PowerSums M t := by
  ext s
  constructor
  · rintro ⟨⟨hpow, hsum⟩, hone⟩
    obtain ⟨s', rfl⟩ := Multiset.exists_cons_of_mem hone
    rw [Multiset.sum_cons] at hsum
    exact ⟨s', ⟨fun k hk => hpow k (Multiset.mem_cons_of_mem hk), by omega⟩, rfl⟩
  · rintro ⟨s', ⟨hpow, hsum⟩, rfl⟩
    refine ⟨⟨fun k hk => ?_, by rw [Multiset.sum_cons, hsum, Nat.add_comm]⟩,
      Multiset.mem_cons_self 1 s'⟩
    rcases Multiset.mem_cons.mp hk with rfl | hk
    · exact ⟨0, rfl⟩
    · exact hpow k hk

/-- Without a 1, all powers are divisible by `M`. -/
theorem eq_map_of_not_mem_one (hM : 2 ≤ M) (hpow : ∀ k ∈ s, ∃ e, k = M ^ e) (hone : 1 ∉ s) :
    ∃ s' : Multiset Nat, (∀ k ∈ s', ∃ e, k = M ^ e) ∧ s = s'.map (M * ·) := by
  have hfactor : ∀ k ∈ s, ∃ e, k = M * M ^ e := by
    intro k hk
    obtain ⟨e, rfl⟩ := hpow k hk
    cases e with
    | zero => exact absurd hk hone
    | succ e => exact ⟨e, Nat.pow_succ'⟩
  refine ⟨s.map (· / M), fun k hk => ?_, ?_⟩
  · obtain ⟨j, hj, rfl⟩ := Multiset.mem_map.mp hk
    obtain ⟨e, rfl⟩ := hfactor j hj
    exact ⟨e, Nat.mul_div_cancel_left _ (by omega)⟩
  · rw [Multiset.map_map]
    refine (Multiset.map_id' s).symm.trans (Multiset.map_congr rfl fun k hk => ?_)
    obtain ⟨e, rfl⟩ := hfactor k hk
    rw [Function.comp_apply, Nat.mul_div_cancel_left _ (by omega)]

/-- A sum without a 1 is `M` times a sum. -/
theorem powerSums_without_one (hM : 2 ≤ M) (t : Nat) :
    {s ∈ PowerSums M (M * t) | 1 ∉ s} = Multiset.map (M * ·) '' PowerSums M t := by
  ext s
  constructor
  · rintro ⟨⟨hpow, hsum⟩, hone⟩
    obtain ⟨s', hpow', rfl⟩ := eq_map_of_not_mem_one hM hpow hone
    rw [Multiset.sum_map_mul_left, Multiset.map_id'] at hsum
    exact ⟨s', ⟨hpow', Nat.eq_of_mul_eq_mul_left (by omega) hsum⟩, rfl⟩
  · rintro ⟨s', ⟨hpow, hsum⟩, rfl⟩
    refine ⟨⟨fun k hk => ?_, ?_⟩, fun hone => ?_⟩
    · obtain ⟨j, hj, rfl⟩ := Multiset.mem_map.mp hk
      obtain ⟨e, rfl⟩ := hpow j hj
      exact ⟨e + 1, Nat.pow_succ'.symm⟩
    · rw [Multiset.sum_map_mul_left, Multiset.map_id', hsum]
    · obtain ⟨j, -, hj⟩ := Multiset.mem_map.mp hone
      have := Nat.eq_one_of_mul_eq_one_right hj
      omega

/-- Without a 1 the sum is a multiple of `M`. -/
theorem powerSums_without_one_of_not_dvd (hM : 2 ≤ M) (hdvd : ¬M ∣ t) :
    {s ∈ PowerSums M t | 1 ∉ s} = ∅ := by
  rw [Set.eq_empty_iff_forall_notMem]
  rintro s ⟨⟨hpow, hsum⟩, hone⟩
  obtain ⟨s', -, rfl⟩ := eq_map_of_not_mem_one hM hpow hone
  rw [Multiset.sum_map_mul_left] at hsum
  exact hdvd ⟨_, hsum.symm⟩

/-- A sum has a 1, which is taken away, or it has none. -/
theorem powerSums_split (M t : Nat) : PowerSums M (t + 1) =
    Multiset.cons 1 '' PowerSums M t ∪ {s ∈ PowerSums M (t + 1) | 1 ∉ s} := by
  rw [← powerSums_with_one]
  ext s
  constructor
  · intro hs
    by_cases hone : 1 ∈ s
    · exact .inl ⟨hs, hone⟩
    · exact .inr ⟨hs, hone⟩
  · rintro (hs | hs)
    · exact hs.1
    · exact hs.1

/-- There are finitely many sums. -/
theorem powerSums_finite (hM : 2 ≤ M) (t : Nat) : (PowerSums M t).Finite := by
  induction t using Nat.strongRecOn with
  | ind t ih =>
    cases t with
    | zero =>
      rw [powerSums_zero hM]
      exact Set.finite_singleton 0
    | succ t =>
      rw [powerSums_split]
      refine ((ih t (Nat.lt_succ_self t)).image _).union ?_
      by_cases hdvd : M ∣ t + 1
      · obtain ⟨q, hq⟩ := hdvd
        rw [hq, powerSums_without_one hM]
        refine (ih q ?_).image _
        rcases Nat.eq_zero_or_pos q with rfl | hpos
        · exact Nat.succ_pos t
        · calc q < 2 * q := by omega
            _ ≤ M * q := Nat.mul_le_mul_right q hM
            _ = t + 1 := hq.symm
      · rw [powerSums_without_one_of_not_dvd hM hdvd]
        exact Set.finite_empty

/-- There is one sum that is 0. -/
theorem numPowerSums_zero (hM : 2 ≤ M) : numPowerSums M 0 = 1 := by
  rw [numPowerSums, powerSums_zero hM, Set.ncard_singleton]

/-- The ways with a 1 and those without. -/
theorem numPowerSums_split (hM : 2 ≤ M) (t : Nat) : numPowerSums M (t + 1) =
    numPowerSums M t + {s ∈ PowerSums M (t + 1) | 1 ∉ s}.ncard := by
  have hdisjoint : Disjoint (Multiset.cons 1 '' PowerSums M t)
      {s ∈ PowerSums M (t + 1) | 1 ∉ s} := by
    rw [← powerSums_with_one, Set.disjoint_left]
    exact fun s hs hs' => hs'.2 hs.2
  have hinjective : Function.Injective (Multiset.cons 1) := fun _ _ h =>
    (Multiset.cons_inj_right 1).mp h
  calc numPowerSums M (t + 1)
      = (Multiset.cons 1 '' PowerSums M t ∪ {s ∈ PowerSums M (t + 1) | 1 ∉ s}).ncard := by
        rw [← powerSums_split, numPowerSums]
    _ = (Multiset.cons 1 '' PowerSums M t).ncard + {s ∈ PowerSums M (t + 1) | 1 ∉ s}.ncard :=
        Set.ncard_union_eq hdisjoint ((powerSums_finite hM t).image _)
          ((powerSums_finite hM (t + 1)).subset fun s hs => hs.1)
    _ = _ := by rw [Set.ncard_image_of_injective _ hinjective, numPowerSums]

/-- At a multiple of `M` there are also the sums without a 1. -/
theorem numPowerSums_succ (hM : 2 ≤ M) {q : Nat} (h : t + 1 = M * q) :
    numPowerSums M (t + 1) = numPowerSums M t + numPowerSums M q := by
  have hinjective : Function.Injective (M * ·) := fun a b hab =>
    Nat.eq_of_mul_eq_mul_left (by omega) hab
  rw [numPowerSums_split hM, h, powerSums_without_one hM,
    Set.ncard_image_of_injective _ (Multiset.map_injective hinjective), ← numPowerSums]

/-- Elsewhere every sum has a 1. -/
theorem numPowerSums_succ_of_not_dvd (hM : 2 ≤ M) (h : ¬M ∣ t + 1) :
    numPowerSums M (t + 1) = numPowerSums M t := by
  rw [numPowerSums_split hM, powerSums_without_one_of_not_dvd hM h, Set.ncard_empty, Nat.add_zero]

end LearnGit.Lib
