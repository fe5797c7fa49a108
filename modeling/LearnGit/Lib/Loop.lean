import Mathlib.Data.Nat.Init
import Mathlib.Tactic.Common

/-!
# `LearnGit.Lib.Loop`: counted loops

`forUp lo hi body s` is `for(i = lo; i < hi; i++)` over a state `s`, and `forDown lo hi body s`
is `for(i = hi - 1; i >= lo; i--)`. The body of `forUp` is given the bounds of `i`, so that a
function may call itself from a loop.

`forUp_induct` and `forDown_induct` are the invariant rules: what holds when the loop is entered
and is kept by every round holds behind the loop. `forUp_rel` is the rule for two loops over the
same counters.
-/

set_option autoImplicit false

namespace LearnGit.Lib

variable {σ : Type} {lo hi : Nat} {s : σ}

/-- `for(i = lo; i < hi; i++)`. -/
def forUp (lo : Nat) : (hi : Nat) → ((i : Nat) → lo ≤ i → i < hi → σ → σ) → σ → σ
  | 0, _, s => s
  | hi + 1, body, s =>
    if h : lo ≤ hi then
      body hi h (Nat.lt_succ_self hi)
        (forUp lo hi (fun i hlo hhi => body i hlo (Nat.lt_succ_of_lt hhi)) s)
    else s

/-- `forUp` with a body that may fail. -/
def forUpM (lo hi : Nat) (body : Nat → σ → Option σ) (s : σ) : Option σ :=
  forUp lo hi (fun i _ _ o => o.bind (body i)) (some s)

/-- `for(i = hi - 1; i >= lo; i--)`. -/
def forDown (lo : Nat) : Nat → (Nat → σ → σ) → σ → σ
  | 0, _, s => s
  | hi + 1, body, s => if lo ≤ hi then forDown lo hi body (body hi s) else s

/-- A loop over nothing has no round. -/
theorem forUp_of_le {body : (i : Nat) → lo ≤ i → i < hi → σ → σ} (h : hi ≤ lo) :
    forUp lo hi body s = s := by
  cases hi with
  | zero => rfl
  | succ hi => rw [forUp, dif_neg (by omega)]

/-- The last round. -/
theorem forUp_succ (h : lo ≤ hi) {body : (i : Nat) → lo ≤ i → i < hi + 1 → σ → σ} :
    forUp lo (hi + 1) body s = body hi h (Nat.lt_succ_self hi)
      (forUp lo hi (fun i hlo hhi => body i hlo (Nat.lt_succ_of_lt hhi)) s) := by
  rw [forUp, dif_pos h]

/-- The invariant rule of `forUp`: `P i` holds before the round of `i`. -/
theorem forUp_induct {P : Nat → σ → Prop} {body : (i : Nat) → lo ≤ i → i < hi → σ → σ}
    (hle : lo ≤ hi) (hinit : P lo s)
    (hstep : ∀ i (hlo : lo ≤ i) (hhi : i < hi) (s : σ), P i s → P (i + 1) (body i hlo hhi s)) :
    P hi (forUp lo hi body s) := by
  induction hi with
  | zero =>
    obtain rfl : lo = 0 := Nat.le_zero.mp hle
    exact hinit
  | succ hi ih =>
    rcases Nat.lt_or_eq_of_le hle with hlt | rfl
    · have hle' : lo ≤ hi := Nat.le_of_lt_succ hlt
      rw [forUp_succ hle']
      refine hstep hi hle' (Nat.lt_succ_self hi) _ (ih hle' ?_)
      intro i hlo hhi s hs
      exact hstep i hlo (Nat.lt_succ_of_lt hhi) s hs
    · rw [forUp_of_le (Nat.le_refl _)]
      exact hinit

/-- The invariant rule for a property that does not name the counter. -/
theorem forUp_inv {I : σ → Prop} {body : (i : Nat) → lo ≤ i → i < hi → σ → σ} (hinit : I s)
    (hstep : ∀ i (hlo : lo ≤ i) (hhi : i < hi) (s : σ), I s → I (body i hlo hhi s)) :
    I (forUp lo hi body s) := by
  rcases Nat.le_total lo hi with hle | hge
  · exact forUp_induct (P := fun _ => I) hle hinit hstep
  · rw [forUp_of_le hge]
    exact hinit

/-- The last round of a loop. -/
theorem forUpM_succ {body : Nat → σ → Option σ} (h : lo ≤ hi) :
    forUpM lo (hi + 1) body s = (forUpM lo hi body s).bind (body hi) :=
  forUp_succ h

/-- A loop over nothing has no round. -/
theorem forUpM_self {body : Nat → σ → Option σ} : forUpM lo lo body s = some s :=
  forUp_of_le (Nat.le_refl lo)

/-- The invariant rule of `forUpM`: no round fails. -/
theorem forUpM_induct {P : Nat → σ → Prop} {body : Nat → σ → Option σ} (hle : lo ≤ hi)
    (hinit : P lo s)
    (hstep : ∀ i s, lo ≤ i → i < hi → P i s → ∃ s', body i s = some s' ∧ P (i + 1) s') :
    ∃ s', forUpM lo hi body s = some s' ∧ P hi s' := by
  refine forUp_induct (P := fun i o => ∃ s', o = some s' ∧ P i s') hle ⟨s, rfl, hinit⟩ ?_
  rintro i hlo hhi _ ⟨s', rfl, hs'⟩
  exact hstep i s' hlo hhi hs'

/-- The invariant rule of a loop inside a loop: `P i j` holds before the inner round of `j`, and
what holds behind a row holds before the next one. -/
theorem forUpM_nested {P : Nat → Nat → σ → Prop} {rows columns : Nat}
    {body : Nat → Nat → σ → Option σ} (hinit : P 0 0 s)
    (hstep : ∀ i j s, i < rows → j < columns → P i j s →
      ∃ s', body i j s = some s' ∧ P i (j + 1) s')
    (hrow : ∀ i s, P i columns s → P (i + 1) 0 s) :
    ∃ s', forUpM 0 rows (fun i => forUpM 0 columns (body i)) s = some s' ∧ P rows 0 s' := by
  refine forUpM_induct (P := fun i s => P i 0 s) (Nat.zero_le rows) hinit ?_
  intro i s _ hi hs
  obtain ⟨s', hloop, hs'⟩ :=
    forUpM_induct (P := fun j s => P i j s) (Nat.zero_le columns) hs
      fun j s _ hj => hstep i j s hi hj
  exact ⟨s', hloop, hrow i s' hs'⟩

/-- A loop that fails in its first rounds fails. -/
theorem forUpM_none_of_le {body : Nat → σ → Option σ} {k : Nat} (hlo : lo ≤ k) (hk : k ≤ hi)
    (h : forUpM lo k body s = none) : forUpM lo hi body s = none := by
  induction hi, hk using Nat.le_induction with
  | base => exact h
  | succ hi hk ih =>
    rw [forUpM_succ (Nat.le_trans hlo hk), ih]
    rfl

/-- A loop with a round that always fails fails. -/
theorem forUpM_none_of_round {body : Nat → σ → Option σ} {k : Nat} (hlo : lo ≤ k) (hk : k < hi)
    (h : ∀ s, body k s = none) : forUpM lo hi body s = none := by
  refine forUpM_none_of_le (k := k + 1) (by omega) hk ?_
  rw [forUpM_succ hlo]
  cases forUpM lo k body s with
  | none => rfl
  | some s => exact h s

/-- Two loops in step: what relates their states is kept by every round. -/
theorem forUp_rel {τ : Type} {R : σ → τ → Prop} {t : τ}
    {f : (i : Nat) → lo ≤ i → i < hi → σ → σ} {g : (i : Nat) → lo ≤ i → i < hi → τ → τ}
    (hinit : R s t)
    (hstep : ∀ i (hlo : lo ≤ i) (hhi : i < hi) (s : σ) (t : τ), R s t →
      R (f i hlo hhi s) (g i hlo hhi t)) :
    R (forUp lo hi f s) (forUp lo hi g t) := by
  induction hi with
  | zero => exact hinit
  | succ hi ih =>
    by_cases hle : lo ≤ hi
    · rw [forUp_succ hle, forUp_succ hle]
      refine hstep hi hle (Nat.lt_succ_self hi) _ _ (ih ?_)
      intro i hlo hhi s t hst
      exact hstep i hlo (Nat.lt_succ_of_lt hhi) s t hst
    · rw [forUp_of_le (by omega), forUp_of_le (by omega)]
      exact hinit

/-- The invariant rule of `forDown`: `P (i + 1)` holds before the round of `i`. -/
theorem forDown_induct {P : Nat → σ → Prop} {body : Nat → σ → σ} (hle : lo ≤ hi)
    (hinit : P hi s) (hstep : ∀ i s, lo ≤ i → i < hi → P (i + 1) s → P i (body i s)) :
    P lo (forDown lo hi body s) := by
  induction hi generalizing s with
  | zero =>
    obtain rfl : lo = 0 := Nat.le_zero.mp hle
    exact hinit
  | succ hi ih =>
    rw [forDown]
    split
    · rename_i hle'
      refine ih hle' (hstep hi s hle' (Nat.lt_succ_self hi) hinit) ?_
      intro i s hlo hhi hs
      exact hstep i s hlo (Nat.lt_succ_of_lt hhi) hs
    · rename_i hgt
      obtain rfl : lo = hi + 1 := by omega
      exact hinit

end LearnGit.Lib
