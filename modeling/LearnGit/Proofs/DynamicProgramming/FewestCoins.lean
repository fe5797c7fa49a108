import LearnGit.DynamicProgramming.FewestCoins
import LearnGit.Lib.Parts

/-!
# `LearnGit.Proofs.DynamicProgramming.FewestCoins`: two tables of coins

`fewest_coins_never`: `min_coin` is right exactly when 1 is the first denomination, since the first
one is taken without a test, and `get_min` is never right for all contents of the memory, since the
entry for the amount itself is not initialised. For denominations in ascending order it returns the
smaller of that entry and the number of coins (`getMin_ascending`).

A round of either program lowers the entry for `i` (`lowerTo`). With all denominations that fit, the
lowest value is the number of coins (`fewest_of_first`).
-/

set_option autoImplicit false

namespace LearnGit.Proofs.DynamicProgramming.FewestCoins

open LearnGit.Lib
open LearnGit.DynamicProgramming.FewestCoins

/-! ### The fewest coins -/

/-- The number is the least one of coins that sum to the amount. -/
def Fewest (types : List Nat) (amount : Nat) (k : Int) : Prop :=
  IsLeast {k : Int | ∃ l, PartsOf (· ∈ types) amount l ∧ (l.length : Int) = k} k

/-- Distinct positive denominations, with 1 among them. -/
structure Denominations (types : List Nat) : Prop where
  nodup : types.Nodup
  pos : ∀ d ∈ types, 1 ≤ d
  one : 1 ∈ types

section
variable {types : List Nat} {amount i : Nat} {k : Int}

/-- A least number of coins is not negative. -/
theorem Fewest.nonneg (h : Fewest types amount k) : 0 ≤ k := by
  obtain ⟨l, -, rfl⟩ := h.1
  exact Int.natCast_nonneg _

/-- An amount takes one coin at least. -/
theorem Fewest.pos (h : Fewest types amount k) (hamount : 1 ≤ amount) : 1 ≤ k := by
  obtain ⟨l, hl, rfl⟩ := h.1
  cases l with
  | nil =>
    have hsum : 0 = amount := hl.2
    omega
  | cons c l =>
    rw [List.length_cons]
    omega

/-- Coins of 1 will do. -/
theorem Fewest.le (h : Fewest types amount k) (hone : 1 ∈ types) : k ≤ amount := by
  refine h.2 ⟨List.replicate amount 1, ⟨?_, ?_⟩, by rw [List.length_replicate]⟩
  · intro p hp
    rwa [List.eq_of_mem_replicate hp]
  · simp

/-- Nothing takes no coin. -/
theorem fewest_zero : Fewest types 0 0 := by
  refine ⟨⟨[], PartsOf.nil, rfl⟩, ?_⟩
  rintro k ⟨l, -, rfl⟩
  exact Int.natCast_nonneg _

/-- The fewest coins with a first coin. -/
theorem fewest_of_first {c : Nat → Int} {x : Int} (hi : 0 < i) (hpos : ∀ d ∈ types, 1 ≤ d)
    (hc : ∀ k < i, Fewest types k (c k))
    (hlower : ∀ d ∈ types, d ≤ i → x ≤ c (i - d) + 1)
    (hfound : ∃ d ∈ types, d ≤ i ∧ x = c (i - d) + 1) : Fewest types i x := by
  constructor
  · -- The first coin and the fewest ones for the rest.
    obtain ⟨d, hd, hle, rfl⟩ := hfound
    have hd1 := hpos d hd
    obtain ⟨l, hl, hlen⟩ := (hc (i - d) (by omega)).1
    refine ⟨d :: l, ?_, by rw [List.length_cons, ← hlen]; push_cast; rfl⟩
    have hcons := hl.cons hd
    rwa [Nat.add_sub_of_le hle] at hcons
  · rintro k ⟨l, ⟨hmem, hsum⟩, rfl⟩
    cases l with
    | nil =>
      have hzero : 0 = i := hsum
      omega
    | cons d l =>
      rw [List.sum_cons] at hsum
      have hd : d ∈ types := hmem d List.mem_cons_self
      have hd1 := hpos d hd
      have hrest : c (i - d) ≤ (l.length : Int) := by
        refine (hc (i - d) (by omega)).2 ⟨l, ⟨?_, by omega⟩, rfl⟩
        exact fun p hp => hmem p (List.mem_cons_of_mem d hp)
      have hfirst := hlower d hd (by omega)
      rw [List.length_cons]
      push_cast
      omega

end

/-! ### The rounds -/

/-- The entry for `i` after a round, with `c` as the table of smaller amounts. -/
def lowerTo (c : Nat → Int) (i : Nat) (x : Int) (d : Nat) : Int :=
  if d ≤ i ∧ c (i - d) + 1 < x then c (i - d) + 1 else x

/-- A round leaves the entry positive. -/
theorem lowerTo_pos {c : Nat → Int} {i d : Nat} {x : Int} (hx : 0 < x)
    (hc : d ≤ i → 0 ≤ c (i - d)) : 0 < lowerTo c i x d := by
  rw [lowerTo]
  split
  · rename_i hlow
    have := hc hlow.1
    omega
  · exact hx

/-- The lowest value of the rounds for `ds`. -/
structure Lowest (ds : List Nat) (c : Nat → Int) (i : Nat) (x₀ x : Int) : Prop where
  le : x ≤ x₀
  lower : ∀ d ∈ ds, d ≤ i → x ≤ c (i - d) + 1
  found : x = x₀ ∨ ∃ d ∈ ds, d ≤ i ∧ x = c (i - d) + 1

/-- The rounds for all types find the lowest value. -/
theorem lowest_foldl (c : Nat → Int) (i : Nat) (ds : List Nat) (x₀ : Int) :
    Lowest ds c i x₀ (ds.foldl (lowerTo c i) x₀) := by
  induction ds generalizing x₀ with
  | nil => exact ⟨Int.le_refl _, fun d hd => absurd hd List.not_mem_nil, .inl rfl⟩
  | cons d ds ih =>
    obtain ⟨hle, hlower, hfound⟩ := ih (lowerTo c i x₀ d)
    rw [List.foldl_cons]
    -- Whether the first round lowers the value.
    by_cases hlow : d ≤ i ∧ c (i - d) + 1 < x₀
    · have hx : lowerTo c i x₀ d = c (i - d) + 1 := if_pos hlow
      rw [hx] at hle hlower hfound ⊢
      refine ⟨by omega, ?_, .inr ?_⟩
      · intro e he hei
        rcases List.mem_cons.mp he with rfl | he
        · exact hle
        · exact hlower e he hei
      · rcases hfound with hfirst | ⟨e, he, hei, heq⟩
        · exact ⟨d, List.mem_cons_self, hlow.1, hfirst⟩
        · exact ⟨e, List.mem_cons_of_mem d he, hei, heq⟩
    · have hx : lowerTo c i x₀ d = x₀ := if_neg hlow
      rw [hx] at hle hlower hfound ⊢
      refine ⟨hle, ?_, hfound.imp id ?_⟩
      · intro e he hei
        rcases List.mem_cons.mp he with rfl | he
        · rw [not_and, not_lt] at hlow
          exact hle.trans (hlow hei)
        · exact hlower e he hei
      · rintro ⟨e, he, hei, heq⟩
        exact ⟨e, List.mem_cons_of_mem d he, hei, heq⟩

/-- From a coin of 1 on, the lowest value is the number of coins. -/
theorem Lowest.fewest {types ds : List Nat} {c : Nat → Int} {i : Nat} {x : Int}
    (h : Lowest ds c i (c (i - 1) + 1) x) (hds : ∀ d, d ∈ types ↔ d = 1 ∨ d ∈ ds)
    (hpos : ∀ d ∈ types, 1 ≤ d) (hi : 1 ≤ i) (hc : ∀ k < i, Fewest types k (c k)) :
    (∃ d ∈ types, d ≤ i ∧ x = c (i - d) + 1) ∧ Fewest types i x := by
  have hfound : ∃ d ∈ types, d ≤ i ∧ x = c (i - d) + 1 := by
    rcases h.found with hone | ⟨d, hd, hdi, heq⟩
    · exact ⟨1, (hds 1).mpr (.inl rfl), hi, hone⟩
    · exact ⟨d, (hds d).mpr (.inr hd), hdi, heq⟩
  refine ⟨hfound, fewest_of_first hi hpos hc (fun d hd hdi => ?_) hfound⟩
  rcases (hds d).mp hd with rfl | hd
  · exact h.le
  · exact h.lower d hd hdi

/-- The table with another entry for `i`. -/
def Lowered (t : Table) (i : Nat) (x : Int) : Table :=
  { t with cell := Function.update t.cell i x }

/-- The rounds for `ds`, where each of them is defined. -/
theorem foldlM_lowered {t : Table} {i : Nat} (round : Table → Nat → Option Table) (P : Int → Prop)
    {ds : List Nat} (hround : ∀ d ∈ ds, ∀ x, P x →
      round (Lowered t i x) d = some (Lowered t i (lowerTo t.cell i x d)) ∧
        P (lowerTo t.cell i x d))
    (x₀ : Int) (hx₀ : P x₀) : ds.foldlM round (Lowered t i x₀)
      = some (Lowered t i (ds.foldl (lowerTo t.cell i) x₀)) := by
  induction ds generalizing x₀ with
  | nil => rfl
  | cons d ds ih =>
    obtain ⟨hstep, hok⟩ := hround d List.mem_cons_self x₀ hx₀
    rw [List.foldlM_cons, hstep, List.foldl_cons]
    exact ih (fun e he => hround e (List.mem_cons_of_mem d he)) _ hok

section
variable {t : Table} {i d : Nat} {x : Int}

/-- The entry is read back. -/
theorem read_here (hi : i < t.size) : (Lowered t i x).read i = some x := by
  rw [Cells.read_of_lt (c := Lowered t i x) hi]
  exact congrArg some (Function.update_self _ _ _)

/-- A second store replaces the entry. -/
theorem write_here (hi : i < t.size) (y : Int) :
    (Lowered t i x).write i y = some (Lowered t i y) := by
  rw [Cells.write_of_lt (c := Lowered t i x) hi]
  exact congrArg (fun f => some (⟨t.size, f⟩ : Table)) (Function.update_idem _ _ _)

/-- What a coin leaves of the amount. -/
theorem read_there (hi : i < t.size) (hd : 1 ≤ d) (hle : d ≤ i) :
    (Lowered t i x).read ((i : Int) - d) = some (t.cell (i - d)) := by
  have hindex : (i : Int) - d = ((i - d : Nat) : Int) := by omega
  rw [hindex, Cells.read_of_lt (c := Lowered t i x) (show i - d < t.size by omega)]
  exact congrArg some (Function.update_of_ne (by omega) _ _)

/-- A round of `min_coin` lowers the entry where the type makes it less. -/
theorem coinRound_lowered (hi : i < t.size) (hd : 1 ≤ d) (hx : 0 < x)
    (hrange : d ≤ i → Int32Range (t.cell (i - d) + 1)) :
    coinRound i (Lowered t i x) d = some (Lowered t i (lowerTo t.cell i x d)) := by
  rw [coinRound, read_here hi, Option.bind_eq_bind, Option.bind_some, if_neg (by omega)]
  by_cases hle : d ≤ i
  · rw [if_pos hle, read_there hi hd hle]
    show (int32 (t.cell (i - d) + 1)).bind _ = _
    rw [int32_of_range (hrange hle)]
    show (if x > t.cell (i - d) + 1 then _ else _) = _
    by_cases hlow : t.cell (i - d) + 1 < x
    · rw [if_pos hlow, write_here hi, lowerTo, if_pos ⟨hle, hlow⟩]
    · rw [if_neg hlow, lowerTo, if_neg fun h => hlow h.2]
  · rw [if_neg hle, lowerTo, if_neg fun h => hle h.1]

/-- Where there is no entry yet, the first denomination gives one. -/
theorem coinRound_first (hi : i < t.size) (hd : 1 ≤ d) (hle : d ≤ i)
    (hrange : Int32Range (t.cell (i - d) + 1)) :
    coinRound i (Lowered t i 0) d = some (Lowered t i (t.cell (i - d) + 1)) := by
  rw [coinRound, read_here hi, Option.bind_eq_bind, Option.bind_some, if_pos rfl,
    read_there hi hd hle]
  show (int32 (t.cell (i - d) + 1)).bind _ = _
  rw [int32_of_range hrange]
  exact write_here hi _

/-- It is taken where it is more than the amount too. -/
theorem coinRound_outside (hi : i < t.size) (hlt : i < d) :
    coinRound i (Lowered t i 0) d = none := by
  rw [coinRound, read_here hi, Option.bind_eq_bind, Option.bind_some, if_pos rfl,
    Cells.read_of_neg (by omega)]
  rfl

/-- A round of `get_min` lowers the entry where the type makes it less. -/
theorem minRound_lowered (hi : i < t.size) (hd : 1 ≤ d) (hle : d ≤ i)
    (hrange : Int32Range (t.cell (i - d) + 1)) :
    minRound i (Lowered t i x) d = some (Lowered t i (lowerTo t.cell i x d)) := by
  rw [minRound, read_there hi hd hle]
  show (int32 (t.cell (i - d) + 1)).bind _ = _
  rw [int32_of_range hrange, read_here hi]
  show (if t.cell (i - d) + 1 < x then _ else _) = _
  by_cases hlow : t.cell (i - d) + 1 < x
  · rw [if_pos hlow, write_here hi, lowerTo, if_pos ⟨hle, hlow⟩]
  · rw [if_neg hlow, lowerTo, if_neg fun h => hlow h.2]

/-- The entry that the table has changes nothing. -/
theorem lowered_self (t : Table) (i : Nat) : Lowered t i (t.cell i) = t := by
  rw [Lowered, Function.update_eq_self]

end

/-! ### `min_coin` -/

/-- The table before the round of `i`: the entries below are right, and the others are 0. -/
structure Filled (types : List Nat) (amount i : Nat) (t : Table) : Prop where
  size : t.size = amount + 1
  fewest : ∀ k < i, Fewest types k (t.cell k)
  empty : ∀ k, i ≤ k → t.cell k = 0

/-- A number of coins, and one more, are `int` numbers. -/
theorem Fewest.range {types : List Nat} {amount : Nat} {k : Int} (h : Fewest types amount k)
    (hone : 1 ∈ types) (hamount : amount < 2 ^ 31 - 1) : Int32Range (k + 1) := by
  have hnonneg := h.nonneg
  have hle := h.le hone
  exact ⟨by omega, by omega⟩

/-- The rounds of all types make the entry for `i` right. -/
theorem minCoin_round {types : List Nat} {amount i : Nat} {t : Table}
    (hpos : ∀ d ∈ types, 1 ≤ d) (hamount : amount < 2 ^ 31 - 1) (hi : 1 ≤ i) (hle : i ≤ amount)
    (h : Filled (1 :: types) amount i t) : ∃ t', (1 :: types).foldlM (coinRound i) t = some t' ∧
      Filled (1 :: types) amount (i + 1) t' := by
  have hone : 1 ∈ 1 :: types := List.mem_cons_self
  have hsize : i < t.size := by rw [h.size]; omega
  have hrange : ∀ d, 1 ≤ d → d ≤ i → Int32Range (t.cell (i - d) + 1) := fun d hd hdi =>
    (h.fewest (i - d) (by omega)).range hone (by omega)
  have hcoins : ∀ d, 1 ≤ d → d ≤ i → 0 ≤ t.cell (i - d) := fun d hd hdi =>
    (h.fewest (i - d) (by omega)).nonneg
  -- The coin of 1 makes the entry positive, and the others lower it.
  have hfirst : coinRound i t 1 = some (Lowered t i (t.cell (i - 1) + 1)) := by
    have hround := coinRound_first hsize (Nat.le_refl 1) hi (hrange 1 (Nat.le_refl 1) hi)
    rwa [← h.empty i (Nat.le_refl i), lowered_self] at hround
  have hone' : 0 < t.cell (i - 1) + 1 := by
    have := hcoins 1 (Nat.le_refl 1) hi
    omega
  have hrest := foldlM_lowered (coinRound i) (fun x => 0 < x) (fun d hd x hx =>
    ⟨coinRound_lowered hsize (hpos d hd) hx (hrange d (hpos d hd)),
      lowerTo_pos hx (hcoins d (hpos d hd))⟩) _ hone'
  have hpos' : ∀ d ∈ 1 :: types, 1 ≤ d := by
    intro d hd
    rcases List.mem_cons.mp hd with rfl | hd
    · exact Nat.le_refl 1
    · exact hpos d hd
  have hlowest := (lowest_foldl t.cell i types (t.cell (i - 1) + 1)).fewest
    (fun d => List.mem_cons) hpos' hi h.fewest
  refine ⟨Lowered t i (types.foldl (lowerTo t.cell i) (t.cell (i - 1) + 1)), ?_, h.size, ?_, ?_⟩
  · rw [List.foldlM_cons, hfirst]
    exact hrest
  · intro k hk
    by_cases hki : k = i
    · subst hki
      show Fewest _ k (Function.update t.cell k _ k)
      rw [Function.update_self]
      exact hlowest.2
    · show Fewest _ k (Function.update t.cell i _ k)
      rw [Function.update_of_ne hki]
      exact h.fewest k (by omega)
  · intro k hk
    show Function.update t.cell i _ k = 0
    rw [Function.update_of_ne (by omega)]
    exact h.empty k (by omega)

/-- The table that `min_coin` returns has the least number of coins for the amount. -/
def MinCoinRight (calloc : Bool) (amount : Nat) (types : List Nat) : Prop :=
  ∃ t, minCoin calloc amount types = some t ∧ Fewest types amount (t.cell amount)

/-- With the coin 1 in front `min_coin` is right for every amount whose counts are an `int`. -/
theorem minCoin_filled {types : List Nat} {amount : Nat} (hpos : ∀ d ∈ types, 1 ≤ d)
    (hamount : amount < 2 ^ 31 - 1) : MinCoinRight true amount (1 :: types) := by
  have hstart : Filled (1 :: types) amount 1 ⟨amount + 1, fun _ => 0⟩ := by
    refine ⟨rfl, fun k hk => ?_, fun _ _ => rfl⟩
    rw [Nat.lt_one_iff.mp hk]
    exact fewest_zero
  obtain ⟨t, hloop, hfilled⟩ := forUpM_induct (show 1 ≤ amount + 1 by omega) hstart
    fun i t hlo hhi h => minCoin_round hpos hamount hlo (by omega) h
  refine ⟨t, ?_, hfilled.fewest amount (Nat.lt_succ_self amount)⟩
  rw [minCoin, int32_of_range ⟨by omega, by omega⟩]
  exact hloop

/-- A first denomination of more than 1 is taken for an amount of 1. -/
theorem minCoin_outside {types : List Nat} {amount d : Nat} (hd : 1 < d) (hamount : 1 ≤ amount)
    (calloc : Bool) : minCoin calloc amount (d :: types) = none := by
  rw [minCoin]
  cases int32 (amount + 1) with
  | none => rfl
  | some size =>
    cases calloc with
    | false => rfl
    | true =>
      show forUpM 1 (amount + 1) _ _ = none
      refine forUpM_none_of_le (k := 2) (by decide) (by omega) ?_
      rw [forUpM_succ (Nat.le_refl 1), forUpM_self]
      show (d :: types).foldlM (coinRound 1) _ = none
      have hround := coinRound_outside (t := ⟨amount + 1, fun _ => 0⟩) (i := 1) (d := d)
        (show 1 < amount + 1 by omega) hd
      rw [show Lowered ⟨amount + 1, fun _ => 0⟩ 1 0 = ⟨amount + 1, fun _ => 0⟩ from
        lowered_self _ _] at hround
      rw [List.foldlM_cons, hround]
      rfl

/-- `min_coin` is right exactly with memory, a smaller amount and the coin 1 in front. -/
theorem minCoin_right_iff {types : List Nat} (h : Denominations types) {amount : Nat}
    (hamount : 1 ≤ amount) (calloc : Bool) : MinCoinRight calloc amount types ↔
      calloc = true ∧ amount < 2 ^ 31 - 1 ∧ types.head? = some 1 := by
  constructor
  · rintro ⟨t, hrun, -⟩
    have hrun' := hrun
    rw [minCoin] at hrun
    obtain ⟨size, hsize, hrun⟩ := Option.bind_eq_some_iff.mp hrun
    have hrange := ((yields_int32 (show False → Int32Range _ from False.elim)).of_eq_some hsize).2
    refine ⟨?_, by have := hrange.2; omega, ?_⟩
    · cases calloc with
      | false => cases hrun
      | true => rfl
    · cases types with
      | nil => exact absurd h.one List.not_mem_nil
      | cons d types =>
        have hd := h.pos d List.mem_cons_self
        by_contra hne
        have hd1 : 1 < d := by
          refine Nat.lt_of_le_of_ne hd fun heq => hne ?_
          rw [List.head?_cons, heq]
        rw [minCoin_outside hd1 hamount] at hrun'
        cases hrun'
  · rintro ⟨rfl, hle, hhead⟩
    cases types with
    | nil => cases hhead
    | cons d types =>
      obtain rfl : d = 1 := Option.some.inj hhead
      exact minCoin_filled (fun e he => h.pos e (List.mem_cons_of_mem _ he)) hle

/-! ### `get_min` -/

/-- What the table holds before the loops of `get_min`. -/
def startCell (memory : Nat → Int) (money k : Nat) : Int :=
  if k = 0 then 0 else if k = money then memory money else 1000000

/-- Before the loops the table has its start values, for every content of the memory. -/
theorem initTable_start (memory : Nat → Int) {money : Nat} (hmoney : 1 ≤ money) :
    ∃ t, initTable memory money = some t ∧ t.size = money + 1
      ∧ ∀ k ≤ money, t.cell k = startCell memory money k := by
  have hloop : ∃ t : Table,
      forUpM 0 money (fun i (t : Table) => t.write i 1000000) ⟨money + 1, memory⟩ = some t
      ∧ t.size = money + 1 ∧ (∀ k < money, t.cell k = 1000000) ∧ t.cell money = memory money := by
    refine forUpM_induct (P := fun i (t : Table) => t.size = money + 1
      ∧ (∀ k < i, t.cell k = 1000000) ∧ t.cell money = memory money) (Nat.zero_le money)
      ⟨rfl, fun k hk => absurd hk (Nat.not_lt_zero k), rfl⟩ ?_
    rintro i t - hi ⟨hsize, hbelow, hlast⟩
    refine ⟨_, Cells.write_of_lt (by omega), hsize, fun k hk => ?_, ?_⟩
    · show Function.update t.cell i _ k = 1000000
      by_cases hki : k = i
      · rw [hki, Function.update_self]
      · rw [Function.update_of_ne hki]
        exact hbelow k (by omega)
    · show Function.update t.cell i _ money = memory money
      rw [Function.update_of_ne (by omega)]
      exact hlast
  obtain ⟨t, hloop, hsize, hbelow, hlast⟩ := hloop
  refine ⟨⟨t.size, Function.update t.cell 0 0⟩, ?_, hsize, fun k hk => ?_⟩
  · rw [initTable, hloop]
    exact Cells.write_of_lt (show 0 < t.size by omega)
  · show Function.update t.cell 0 0 k = _
    rw [startCell]
    by_cases hk0 : k = 0
    · rw [hk0, Function.update_self, if_pos rfl]
    · rw [Function.update_of_ne hk0, if_neg hk0]
      by_cases hlt : k = money
      · rw [if_pos hlt, hlt, hlast]
      · rw [if_neg hlt, hbelow k (by omega)]

/-- What `get_min` returns is the least number of coins for the amount, whatever its table holds at
first. -/
def GetMinRight (amount : Nat) (types : List Nat) : Prop :=
  ∀ memory, ∃ k, getMin memory amount types = some k ∧ Fewest types amount k

/-- A round raises no entry. -/
theorem minRound_le {t : Table} {i d j : Nat} {x : Int} (hx : t.cell j ≤ x) :
    Yields False (fun t' => t'.cell j ≤ x) (minRound i t d) := by
  rw [minRound]
  cases t.read ((i : Int) - d) with
  | none => exact id
  | some there =>
    show Yields False _ ((int32 (there + 1)).bind _)
    cases int32 (there + 1) with
    | none => exact id
    | some sum =>
      by_cases hi : i < t.size
      · show Yields False _ ((t.read i).bind _)
        rw [Cells.read_of_lt hi, Option.bind_some]
        by_cases hlow : sum < t.cell i
        · rw [if_pos hlow, Cells.write_of_lt hi]
          show Function.update t.cell i sum j ≤ x
          by_cases hji : j = i
          · subst hji
            rw [Function.update_self]
            omega
          · rwa [Function.update_of_ne hji]
        · rwa [if_neg hlow]
      · show Yields False _ ((t.read i).bind _)
        rw [Cells.read, if_neg (by omega)]
        exact id

/-- The result is not more than what was in the memory. -/
theorem getMin_le {memory : Nat → Int} {amount : Nat} {types : List Nat} {k : Int}
    (hamount : 1 ≤ amount) (hrun : getMin memory amount types = some k) : k ≤ memory amount := by
  rw [getMin] at hrun
  obtain ⟨size, -, hrun⟩ := Option.bind_eq_some_iff.mp hrun
  obtain ⟨t, hinit, hrun⟩ := Option.bind_eq_some_iff.mp hrun
  obtain ⟨t', hfill, hread⟩ := Option.bind_eq_some_iff.mp hrun
  obtain ⟨t₀, hinit₀, -, hstart⟩ := initTable_start memory hamount
  obtain rfl : t₀ = t := Option.some.inj (hinit₀.symm.trans hinit)
  have hlast : t₀.cell amount = memory amount := by
    rw [hstart amount (Nat.le_refl amount), startCell, if_neg (by omega), if_pos rfl]
  have hyields : Yields False (fun t' : Table => t'.cell amount ≤ memory amount)
      (fillTable amount types t₀) :=
    forUpM_yields (P := fun _ (t' : Table) => t'.cell amount ≤ memory amount)
      (show 1 ≤ amount + 1 by omega) hlast.le
      fun i t' _ _ h => foldlM_yields h fun t'' d _ h' => minRound_le h'
  rw [hfill] at hyields
  obtain ⟨-, hcell⟩ := Option.ite_none_right_eq_some.mp hread
  rw [← Option.some.inj hcell]
  exact hyields

/-- With 0 in the memory the result is not a positive number. -/
theorem not_getMinRight {amount : Nat} (hamount : 1 ≤ amount) (types : List Nat) :
    ¬GetMinRight amount types := by
  intro h
  -- One content of the memory is enough.
  obtain ⟨k, hrun, hk⟩ := h fun _ => 0
  have hle := getMin_le hamount hrun
  have hpos := hk.pos hamount
  omega

/-- The denominations that the loop comes to are all that are not more than `i`. -/
theorem mem_takeWhile_ascending {types : List Nat} (h : types.Pairwise (· < ·)) (i d : Nat) :
    d ∈ types.takeWhile (· ≤ i) ↔ d ∈ types ∧ d ≤ i := by
  induction types with
  | nil => simp
  | cons e types ih =>
    obtain ⟨hfirst, hrest⟩ := List.pairwise_cons.mp h
    by_cases he : e ≤ i
    · rw [List.takeWhile_cons_of_pos (by simpa using he), List.mem_cons, ih hrest, List.mem_cons]
      constructor
      · rintro (rfl | ⟨hd, hdi⟩)
        · exact ⟨.inl rfl, he⟩
        · exact ⟨.inr hd, hdi⟩
      · rintro ⟨rfl | hd, hdi⟩
        · exact .inl rfl
        · exact .inr ⟨hd, hdi⟩
    · rw [List.takeWhile_cons_of_neg (by simpa using he)]
      refine ⟨fun hd => absurd hd List.not_mem_nil, ?_⟩
      rintro ⟨hd, hdi⟩
      rcases List.mem_cons.mp hd with rfl | hd
      · exact absurd hdi he
      · have := hfirst d hd
        omega

/-- The lowest value is the number of coins, where that is less than the entry had been. -/
theorem Lowest.eq_min {types ds : List Nat} {c : Nat → Int} {i : Nat} {x₀ x : Int}
    (h : Lowest ds c i x₀ x) (hds : ∀ d, d ∈ ds ↔ d ∈ types ∧ d ≤ i)
    (hpos : ∀ d ∈ types, 1 ≤ d) (hone : 1 ∈ types) (hi : 1 ≤ i)
    (hc : ∀ k < i, Fewest types k (c k)) : ∃ best, Fewest types i best ∧ x = min x₀ best := by
  -- The number of coins is the lowest value that the rounds give from a first coin of 1.
  have hlowest := lowest_foldl c i types (c (i - 1) + 1)
  generalize types.foldl (lowerTo c i) (c (i - 1) + 1) = best at hlowest
  have hmem : ∀ d, d ∈ types ↔ d = 1 ∨ d ∈ types := fun d =>
    ⟨.inr, fun hd => hd.elim (fun heq => heq ▸ hone) id⟩
  obtain ⟨⟨d, hd, hdi, heq⟩, hbest⟩ := hlowest.fewest hmem hpos hi hc
  refine ⟨best, hbest, ?_⟩
  have hle := h.le
  have hlow : x ≤ best := heq ▸ h.lower d ((hds d).mpr ⟨hd, hdi⟩) hdi
  rcases h.found with hsame | ⟨e, he, hei, heq'⟩
  · omega
  · have := hlowest.lower e ((hds e).mp he).1 hei
    omega

/-- The table before the round of `i`. -/
structure Lowering (types : List Nat) (memory : Nat → Int) (amount i : Nat) (t : Table) : Prop where
  size : t.size = amount + 1
  done : ∀ k < i, ∃ best, Fewest types k best ∧ t.cell k = min (startCell memory amount k) best
  start : ∀ k, i ≤ k → k ≤ amount → t.cell k = startCell memory amount k

/-- Below the amount there is no difference from the number of coins. -/
theorem Lowering.fewest {types : List Nat} {memory : Nat → Int} {amount i : Nat} {t : Table}
    (h : Lowering types memory amount i t) (hone : 1 ∈ types) (hamount : amount ≤ 1000000) {k : Nat}
    (hk : k < i) (hlt : k < amount) : Fewest types k (t.cell k) := by
  obtain ⟨best, hbest, heq⟩ := h.done k hk
  have hnonneg := hbest.nonneg
  have hle := hbest.le hone
  suffices hcell : t.cell k = best by rwa [hcell]
  rw [heq, startCell]
  split
  · omega
  · rw [if_neg (by omega)]
    omega

/-- The rounds of the types up to `i` make the entry for `i` right. -/
theorem getMin_round {types : List Nat} {memory : Nat → Int} {amount i : Nat} {t : Table}
    (hpos : ∀ d ∈ types, 1 ≤ d) (hone : 1 ∈ types) (hsorted : types.Pairwise (· < ·))
    (hamount : amount ≤ 1000000) (hi : 1 ≤ i) (hle : i ≤ amount)
    (h : Lowering types memory amount i t) :
    ∃ t', (types.takeWhile (· ≤ i)).foldlM (minRound i) t = some t'
      ∧ Lowering types memory amount (i + 1) t' := by
  have hsize : i < t.size := by rw [h.size]; omega
  have hmem := mem_takeWhile_ascending hsorted i
  have hfewest : ∀ k < i, Fewest types k (t.cell k) := fun k hk =>
    h.fewest hone hamount hk (by omega)
  have hround : ∀ d ∈ types.takeWhile (· ≤ i), ∀ x, True →
      minRound i (Lowered t i x) d = some (Lowered t i (lowerTo t.cell i x d)) ∧ True := by
    intro d hd x _
    obtain ⟨hd, hdi⟩ := (hmem d).mp hd
    have hd1 := hpos d hd
    refine ⟨minRound_lowered hsize hd1 hdi ?_, trivial⟩
    exact (hfewest (i - d) (by omega)).range hone (by omega)
  have hrun := foldlM_lowered (minRound i) (fun _ => True) hround (t.cell i) trivial
  rw [lowered_self] at hrun
  obtain ⟨best, hbest, heq⟩ := (lowest_foldl t.cell i (types.takeWhile (· ≤ i)) (t.cell i)).eq_min
    hmem hpos hone hi hfewest
  refine ⟨_, hrun, h.size, fun k hk => ?_, fun k hk hk' => ?_⟩
  · by_cases hki : k = i
    · subst hki
      refine ⟨best, hbest, ?_⟩
      rw [← h.start k (Nat.le_refl k) hle, ← heq]
      exact Function.update_self _ _ _
    · show ∃ best, Fewest types k best ∧ Function.update t.cell i _ k = _
      rw [Function.update_of_ne hki]
      exact h.done k (by omega)
  · show Function.update t.cell i _ k = _
    rw [Function.update_of_ne (by omega)]
    exact h.start k (by omega) hk'

/-- For denominations in ascending order, what was in the memory is the only fault. -/
theorem getMin_ascending {types : List Nat} (h : Denominations types)
    (hsorted : types.Pairwise (· < ·)) {amount : Nat} (hamount : 1 ≤ amount)
    (hle : amount ≤ 1000000) (memory : Nat → Int) :
    ∃ best, Fewest types amount best
      ∧ getMin memory amount types = some (min (memory amount) best) := by
  obtain ⟨t, hinit, hsize, hstart⟩ := initTable_start memory hamount
  have hfirst : Lowering types memory amount 1 t := by
    refine ⟨hsize, fun k hk => ?_, fun k _ hk => hstart k hk⟩
    rw [Nat.lt_one_iff.mp hk]
    exact ⟨0, fewest_zero, hstart 0 (Nat.zero_le amount)⟩
  obtain ⟨t', hfill, hdone⟩ := forUpM_induct (show 1 ≤ amount + 1 by omega) hfirst
    fun i t hlo hhi hround => getMin_round h.pos h.one hsorted hle hlo (by omega) hround
  obtain ⟨best, hbest, heq⟩ := hdone.done amount (Nat.lt_succ_self amount)
  rw [startCell, if_neg (by omega), if_pos rfl] at heq
  refine ⟨best, hbest, ?_⟩
  have hread := Cells.read_of_lt (c := t') (i := amount) (by rw [hdone.size]; omega)
  rw [getMin, int32_of_range ⟨by omega, by omega⟩, Option.bind_eq_bind, Option.bind_some, hinit,
    Option.bind_eq_bind, Option.bind_some, show fillTable amount types t = some t' from hfill,
    Option.bind_some, hread, heq]

/-! ### Both -/

/-- For no amount and no denominations are both right. `min_coin` is right where 1 is the first
denomination and its table is allocated, and `get_min` is not right, with one number in the memory
or another. -/
theorem fewest_coins_never {types : List Nat} (h : Denominations types) {amount : Nat}
    (hamount : 1 ≤ amount) (calloc : Bool) :
    ¬(MinCoinRight calloc amount types ∧ GetMinRight amount types)
      ∧ (MinCoinRight calloc amount types
          ↔ calloc = true ∧ amount < 2 ^ 31 - 1 ∧ types.head? = some 1)
      ∧ (types.Pairwise (· < ·) → amount ≤ 1000000 → ∀ memory, ∃ best, Fewest types amount best
          ∧ getMin memory amount types = some (min (memory amount) best)) := by
  refine ⟨fun hright => not_getMinRight hamount types hright.2, minCoin_right_iff h hamount calloc,
    fun hsorted hle memory => getMin_ascending h hsorted hamount hle memory⟩

/-- The denominations of `main`. -/
theorem fewest_coins_never_eleven : Denominations [1, 3, 5]
    ∧ ¬(MinCoinRight true 11 [1, 3, 5] ∧ GetMinRight 11 [1, 3, 5]) :=
  have h : Denominations [1, 3, 5] := ⟨by decide, by decide, by decide⟩
  ⟨h, (fewest_coins_never h (by decide) true).1⟩

/-- With 0 in the memory `get_min` returns 0, and with 3 as the first denomination `min_coin` reads
below its table. -/
theorem fewest_coins_wrong : Denominations [1, 3, 5]
    ∧ getMin (fun _ => 0) 11 [1, 3, 5] = some 0 ∧ ¬Fewest [1, 3, 5] 11 0
    ∧ Denominations [3, 1, 5] ∧ minCoin true 11 [3, 1, 5] = none := by
  refine ⟨⟨by decide, by decide, by decide⟩, by decide, ?_,
    ⟨by decide, by decide, by decide⟩, by decide⟩
  intro h
  exact absurd (h.pos (by decide)) (by decide)

end LearnGit.Proofs.DynamicProgramming.FewestCoins
