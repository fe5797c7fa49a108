import LearnGit.Proofs.DynamicProgramming.CutRodSolution

/-!
# `LearnGit.Proofs.DynamicProgramming.CutCost`: a cut that is paid for twice

The price of the rest has the cost of its cuts in it, and `cut_rod` subtracts the cost of all cuts
again. `cutCost_right_iff`: the program is right up to 20 units, but for 15 and 18.

A rod of at most two pieces has one cut, and the rest of it none, so that nothing is paid for twice.
`EntryUnder` is what every entry of the table has: its price is at most the greatest one, and it is
less than that for the lengths that need three pieces. Up to 20 units the runs are computed.
-/

set_option autoImplicit false

namespace LearnGit.Proofs.DynamicProgramming.CutRodSolution.CutCost

open LearnGit.Lib
open LearnGit.DynamicProgramming.CutRodSolution hiding PerfectSolution CutLocals initPerfectSolution
open LearnGit.DynamicProgramming.CutRodSolution.CutCost

/-! ### The greatest price -/

/-- The price of the pieces without the cost of the cuts between them. -/
def net (l : List Nat) : Int := (l.map priceOf).sum - ((l.length : Int) - 1) * cutPrice

/-- The greatest sum of prices, each less the cost of a cut, for less than ten units. -/
def costBase (r : Nat) : Int := [0, 0, 4, 7, 8, 11, 16, 16, 20, 23].getD r 0

/-- The greatest price without the cost of the cuts. There is one cut less than there are pieces. -/
def bestNet (n : Nat) : Int := byPeriod 10 29 costBase n + 1

/-- A cut cost taken from every piece but one: each piece counts its price less 1. -/
theorem net_eq (l : List Nat) : net l = (l.map fun p => priceOf p - 1).sum + 1 := by
  have hsum : (l.map fun p => priceOf p - 1).sum = (l.map priceOf).sum - l.length := by
    induction l with
    | nil => rfl
    | cons p l ih =>
      rw [List.map_cons, List.sum_cons, ih, List.map_cons, List.sum_cons, List.length_cons]
      omega
  rw [net, hsum, cutPrice]
  omega

/-- The period gives the greatest sum of the prices less 1. -/
theorem cost_greatest (n : Nat) : IsGreatest (totals Priced (fun p => priceOf p - 1) n)
    (byPeriod 10 29 costBase n) :=
  isGreatest_byPeriod (by decide) (by decide) (by decide) (by decide) (by decide) n

/-- `bestNet` is the greatest price of the pieces less the cuts. -/
theorem bestNet_greatest (n : Nat) :
    IsGreatest {t | ∃ l, PartsOf Priced n l ∧ net l = t} (bestNet n) := by
  obtain ⟨⟨l, hl, hsum⟩, hbound⟩ := cost_greatest n
  refine ⟨⟨l, hl, ?_⟩, ?_⟩
  · rw [net_eq, hsum, bestNet]
  · rintro t ⟨l', hl', rfl⟩
    have hle := hbound ⟨l', hl', rfl⟩
    rw [net_eq, bestNet]
    omega

/-- A piece in front of the best pieces is no better than the best. -/
theorem bestNet_step {p : Nat} (hp : Priced p) (n : Nat) :
    priceOf p - 1 + bestNet n ≤ bestNet (p + n) := by
  have hstep : priceOf p - 1 + byPeriod 10 29 costBase n ≤ byPeriod 10 29 costBase (p + n) :=
    byPeriod_step (w := fun p => priceOf p - 1) (by decide) (by decide) hp n
  rw [bestNet, bestNet]
  omega

/-- Cutting one rod into the pieces of two costs one cut more at most. -/
theorem bestNet_add (i j : Nat) : bestNet i + bestNet j ≤ bestNet (i + j) + 1 := by
  have hadd := add_le_of_isGreatest (cost_greatest i) (cost_greatest j) (cost_greatest (i + j))
  rw [bestNet, bestNet, bestNet]
  omega

/-- Every rod has a positive price. -/
theorem bestNet_pos (n : Nat) : 0 < bestNet n := by
  obtain ⟨⟨l, hl, hsum⟩, -⟩ := cost_greatest n
  have hnonneg : 0 ≤ (l.map fun p => priceOf p - 1).sum := by
    refine List.sum_nonneg fun x hx => ?_
    obtain ⟨p, hp, rfl⟩ := List.mem_map.mp hx
    have := priceOf_pos (hl.1 p hp)
    omega
  rw [bestNet]
  omega

/-- No piece longer than 10 has a price. -/
theorem priceOf_of_gt {k : Nat} (h : 10 < k) : priceOf k = 0 := by
  have hnone : price[k]? = none := List.getElem?_eq_none (show 11 ≤ k by omega)
  rw [priceOf, List.getD_eq_getElem?_getD, hnone]
  rfl

/-! ### The entries of the table -/

/-- The lengths that need three pieces. -/
def ThreePieces (n : Nat) : Prop := n = 15 ∨ n = 18 ∨ 21 ≤ n

instance (n : Nat) : Decidable (ThreePieces n) := inferInstanceAs (Decidable (_ ∨ _ ∨ _))

/-- What is known of an entry for `k`, of its price and of its number of cuts. An entry without a
cut has the price of a piece, unless it is so long that its price is known to be less. -/
structure EntryUnder (k : Nat) (total count : Int) : Prop where
  nonneg : 0 ≤ total
  le : total ≤ bestNet k
  count_nonneg : 0 ≤ count
  count_lt : count < k
  single : count = 0 → total ≤ priceOf k ∨ 21 ≤ k
  strict : ThreePieces k → total < bestNet k

/-- An entry of zeros is right in that sense. -/
theorem EntryUnder.zero {k : Nat} (hk : 0 < k) : EntryUnder k 0 0 := by
  refine ⟨Int.le_refl 0, (bestNet_pos k).le, Int.le_refl 0, by omega, ?_, fun _ => bestNet_pos k⟩
  intro _
  refine .inl ?_
  rcases Nat.lt_or_ge 10 k with hlong | hshort
  · rw [priceOf_of_gt hlong]
  · exact (priceOf_pos ⟨hk, hshort⟩).le

/-- From 11 units on, an entry of the greatest price has a cut. -/
theorem EntryUnder.charged {k : Nat} {total count : Int} (h : EntryUnder k total count)
    (hk : 11 ≤ k) : total < bestNet k ∨ 1 ≤ count := by
  rcases Int.lt_or_eq_of_le h.count_nonneg with hpos | hzero
  · exact .inr (by omega)
  · -- Without a cut it has the price of one piece, which is 0 behind the price table.
    refine .inl ?_
    rcases h.single hzero.symm with hprice | hlong
    · rw [priceOf_of_gt (by omega)] at hprice
      exact lt_of_le_of_lt hprice (bestNet_pos k)
    · exact h.strict (.inr (.inr hlong))

/-- A piece and a rest. -/
theorem EntryUnder.cons {i k : Nat} {total count : Int} (hi : Priced i)
    (h : EntryUnder k total count) (hpos : 0 ≤ priceOf i + total - (count + 1)) :
    EntryUnder (i + k) (priceOf i + total - (count + 1)) (count + 1) := by
  have hstep := bestNet_step hi k
  have hle := h.le
  have hnonneg := h.count_nonneg
  have hlt := h.count_lt
  have hlo := hi.1
  have hhi := hi.2
  refine ⟨hpos, by omega, by omega, by omega, fun hzero => by omega, fun hthree => ?_⟩
  rcases Int.lt_or_eq_of_le hnonneg with hcut | hzero
  · omega
  · rcases h.single hzero.symm with hprice | hlong
    · -- Two pieces do not make up 15 or 18 units at the greatest price.
      rcases Nat.lt_or_ge 10 k with hk10 | hk10
      · rw [priceOf_of_gt hk10] at hprice
        have := bestNet_pos k
        omega
      · have htable : ∀ i, i ≤ 10 → ∀ k, k ≤ 10 → ThreePieces (i + k) →
            priceOf i + priceOf k - 1 < bestNet (i + k) := by decide
        have := htable i hhi k hk10 hthree
        omega
    · have := h.strict (.inr (.inr hlong))
      omega

/-- Two parts, one of which has no price of its own. -/
theorem EntryUnder.append {i k : Nat} {first rest count count' : Int} (hi : 11 ≤ i)
    (h : EntryUnder i first count) (h' : EntryUnder k rest count')
    (hpos : 0 ≤ first + rest - (count + count' + 1)) :
    EntryUnder (i + k) (first + rest - (count + count' + 1)) (count + count' + 1) := by
  have hadd := bestNet_add i k
  have hle := h.le
  have hle' := h'.le
  have hnonneg := h.count_nonneg
  have hnonneg' := h'.count_nonneg
  have hlt := h.count_lt
  have hlt' := h'.count_lt
  refine ⟨hpos, by omega, by omega, by omega, fun hzero => by omega, fun _ => ?_⟩
  -- Either the first part is too cheap already, or one of its cuts is paid for twice.
  rcases h.charged hi with hless | hcut
  · omega
  · omega

/-- A rod in one piece. -/
theorem EntryUnder.whole {k : Nat} (hk : Priced k) : EntryUnder k (priceOf k) 0 := by
  have hstep := bestNet_step hk 0
  have hzero : bestNet 0 = 1 := by decide
  have hlo := hk.1
  have hhi := hk.2
  rw [hzero, Nat.add_zero] at hstep
  refine ⟨(priceOf_pos hk).le, by omega, Int.le_refl 0, by omega, fun _ => .inl (Int.le_refl _), ?_⟩
  rintro (h | h | h) <;> omega

/-! ### The run -/

/-- Every entry of the table is right in that sense. -/
structure Under (s : PerfectSolution) : Prop where
  zero : s.selectedPrice 0 = 0
  entry : ∀ k, 0 < k → EntryUnder k (s.selectedPrice k) (s.cutCount k)

/-- What a call of `cut_rod` keeps. -/
structure Called (length : Nat) (s s' : PerfectSolution) : Prop where
  under : Under s'
  frame : ∀ k, length < k → s'.selectedPrice k = s.selectedPrice k

section Loop

variable {cutRod : Nat → PerfectSolution → Option PerfectSolution} {length i : Nat}
  {s : PerfectSolution} {l : CutLocals}

/-- What the calls in the loop do when they return, and the one that finds its price. -/
structure CallsUnder (cutRod : Nat → PerfectSolution → Option PerfectSolution) (length : Nat) :
    Prop where
  any : ∀ k s, Under s → Yields False (Called k s) (cutRod k s)
  same : ∀ s, 0 < s.selectedPrice length → Yields False (fun s' => s' = s) (cutRod length s)

/-- The locals before the round of `i`. Up to 20 units the price that is selected is `max`, and
behind the piece of 10 it is positive. -/
structure Running (length i : Nat) (s : PerfectSolution) (l : CutLocals) : Prop where
  under : Under l.ourSolution
  max_nonneg : 0 ≤ l.max
  frame : ∀ k, length < k → l.ourSolution.selectedPrice k = s.selectedPrice k
  selected : length ≤ 20 → l.ourSolution.selectedPrice length = l.max
  positive : length ≤ 20 → 10 < i → 0 < l.max

/-- The entry that is selected is read back. -/
theorem select_self (l : CutLocals) (length i : Nat) (total count : Int) :
    (l.select length i total count).ourSolution.selectedPrice length = total ∧
      (l.select length i total count).ourSolution.cutCount length = count :=
  ⟨Function.update_self _ _ _, Function.update_self _ _ _⟩

/-- Selecting an entry leaves the others. -/
theorem select_of_ne (l : CutLocals) {length k : Nat} (hk : k ≠ length) (i : Nat)
    (total count : Int) :
    (l.select length i total count).ourSolution.selectedPrice k = l.ourSolution.selectedPrice k ∧
      (l.select length i total count).ourSolution.cutCount k = l.ourSolution.cutCount k :=
  ⟨Function.update_of_ne hk _ _, Function.update_of_ne hk _ _⟩

/-- The branch for a value that is more than `max`. -/
theorem takeMax_yields {first rest count : Int} (hpos : 0 < length) (h : Running length i s l)
    (hentry : l.max < first + rest - count → EntryUnder length (first + rest - count) count)
    (hten : length ≤ 20 → i = 10 → 0 < first + rest - count) :
    Yields False (Running length (i + 1) s) (takeMax length i first rest count l) := by
  rw [takeMax]
  refine (yields_int32 False.elim).bind ?_
  rintro sum - ⟨rfl, -⟩
  refine (yields_int32 False.elim).bind ?_
  rintro cost - ⟨rfl, -⟩
  refine (yields_int32 False.elim).bind ?_
  rintro total - ⟨rfl, -⟩
  rw [cutPrice, Int.one_mul]
  have hmax := h.max_nonneg
  show Yields False _ (if l.max < first + rest - count then _ else _)
  split
  · rename_i hmore
    show Running length (i + 1) s (l.select length i (first + rest - count) count)
    have hother := fun k (hk : k ≠ length) => select_of_ne l hk i (first + rest - count) count
    obtain ⟨hprice, hcount⟩ := select_self l length i (first + rest - count) count
    have hpositive : 0 < first + rest - count := by omega
    refine ⟨⟨?_, ?_⟩, hpositive.le, ?_, fun _ => hprice, fun _ _ => hpositive⟩
    · rw [(hother 0 (by omega)).1]
      exact h.under.zero
    · intro k hk
      by_cases hkl : k = length
      · subst hkl
        rw [hprice, hcount]
        exact hentry hmore
      · rw [(hother k hkl).1, (hother k hkl).2]
        exact h.under.entry k hk
    · intro k hk
      rw [(hother k (by omega)).1]
      exact h.frame k hk
  · rename_i hless
    refine ⟨h.under, hmax, h.frame, h.selected, fun hshort hi => ?_⟩
    rcases Nat.lt_or_ge 10 i with hlt | hge
    · exact h.positive hshort hlt
    · have := hten hshort (by omega)
      omega

/-- A call for a smaller length. -/
theorem Running.called (h : Running length i s l) {k : Nat} (hk : k < length)
    {s' : PerfectSolution} (hcall : Called k l.ourSolution s') :
    Running length i s ⟨l.max, s'⟩ := by
  refine ⟨hcall.under, h.max_nonneg, fun j hj => ?_, fun hshort => ?_, h.positive⟩
  · exact (hcall.frame j (by omega)).trans (h.frame j hj)
  · exact (hcall.frame length hk).trans (h.selected hshort)

/-- The round of a piece that has a price. -/
theorem priced_yields (hcalls : CallsUnder cutRod length) (hi : Priced i) (hle : i ≤ length)
    (h : Running length i s l) :
    Yields False (Running length (i + 1) s) (cutRound cutRod length i l) := by
  obtain ⟨hlo, hhi⟩ := hi
  have hrange : PRICERANGE = 11 := rfl
  have hprice : price[i]? = some (priceOf i) := by
    have htable : ∀ i, i ≤ 10 → price[i]? = some (priceOf i) := by decide
    exact htable i hhi
  have hten : i = 10 → priceOf i = 30 := by
    rintro rfl
    rfl
  rw [cutRound, if_pos (by omega)]
  refine (hcalls.any (length - i) l.ourSolution h.under).bind ?_
  rintro s' - hcall
  have hrun : Running length i s ⟨l.max, s'⟩ := h.called (by omega) hcall
  by_cases hwhole : i = length
  · -- The rod in one piece.
    subst hwhole
    rw [if_pos rfl, hprice, Nat.sub_self, hcall.under.zero]
    refine takeMax_yields hlo hrun (fun _ => ?_) fun _ hten' => ?_
    · rw [Int.add_zero, Int.sub_zero]
      exact EntryUnder.whole ⟨hlo, hhi⟩
    · have := hten hten'
      omega
  · -- A piece, and a rest whose cuts are paid for already.
    have hrest := hcall.under.entry (length - i) (by omega)
    rw [if_neg hwhole, hprice]
    refine (yields_int32 False.elim).bind ?_
    rintro count - ⟨rfl, -⟩
    have hmax := h.max_nonneg
    refine takeMax_yields (by omega) hrun (fun hmore => ?_) fun hshort hten' => ?_
    · have hmore' : l.max < _ := hmore
      have hcons := hrest.cons ⟨hlo, hhi⟩ (by omega)
      rwa [Nat.add_sub_of_le hle] at hcons
    · have := hten hten'
      have := hrest.nonneg
      have := hrest.count_lt
      omega

/-- The round of the whole rod, where that has no price. Up to 20 units the call finds the price
that it has already, and behind that a price is always too low. -/
theorem unpriced_whole_yields (hcalls : CallsUnder cutRod length) (hlength : PRICERANGE < length)
    (h : Running length length s l) :
    Yields False (Running length (length + 1) s) (cutRound cutRod length length l) := by
  have hlength' : 11 < length := hlength
  have hmax := h.max_nonneg
  have hfirst : Yields False (fun s' => Running length length s ⟨l.max, s'⟩ ∧
      (length ≤ 20 → s'.selectedPrice length = l.max)) (cutRod length l.ourSolution) := by
    rcases Nat.lt_or_ge 20 length with hlong | hshort
    · refine (hcalls.any length l.ourSolution h.under).mono id fun s' hcall => ⟨?_, fun hle => ?_⟩
      · refine ⟨hcall.under, hmax, fun j hj => ?_, fun hle => ?_, fun hle => ?_⟩
        · exact (hcall.frame j hj).trans (h.frame j hj)
        · omega
        · omega
      · omega
    · -- The price that is selected is positive, and the call returns at once.
      have hselected := h.selected hshort
      have hpositive := h.positive hshort (by omega)
      refine (hcalls.same l.ourSolution (by omega)).mono id ?_
      rintro s' rfl
      exact ⟨h, fun _ => hselected⟩
  rw [cutRound, if_neg (by omega), if_pos hlength]
  refine hfirst.bind ?_
  rintro s' - ⟨hrun, hselected⟩
  rw [Nat.sub_self]
  refine (hcalls.any 0 s' hrun.under).bind ?_
  rintro s'' - hcall
  have hrun' : Running length length s ⟨l.max, s''⟩ := hrun.called (by omega) hcall
  have hprice : s''.selectedPrice length = s'.selectedPrice length := hcall.frame length (by omega)
  rw [if_pos rfl, hcall.under.zero]
  refine takeMax_yields (by omega) hrun' (fun hmore => ?_) fun _ hten => by omega
  rw [Int.add_zero, Int.sub_zero] at hmore ⊢
  have hmore' : l.max < s''.selectedPrice length := hmore
  have hlong : 20 < length := by
    by_contra hshort
    have := hselected (by omega)
    omega
  have hentry := hcall.under.entry length (by omega)
  exact ⟨hentry.nonneg, hentry.le, Int.le_refl 0, by omega, fun _ => .inr hlong, hentry.strict⟩

/-- The round of a piece that has no price. -/
theorem unpriced_yields (hcalls : CallsUnder cutRod length) (hi : PRICERANGE < i)
    (hle : i ≤ length) (h : Running length i s l) :
    Yields False (Running length (i + 1) s) (cutRound cutRod length i l) := by
  have hi' : 11 < i := hi
  have hmax := h.max_nonneg
  by_cases hwhole : i = length
  · subst hwhole
    exact unpriced_whole_yields hcalls hi h
  · rw [cutRound, if_neg (by omega), if_pos hi]
    refine (hcalls.any i l.ourSolution h.under).bind ?_
    rintro s' - hfirst
    have hrun : Running length i s ⟨l.max, s'⟩ := h.called (by omega) hfirst
    refine (hcalls.any (length - i) s' hrun.under).bind ?_
    rintro s'' - hrest
    have hrun' : Running length i s ⟨l.max, s''⟩ := hrun.called (by omega) hrest
    rw [if_neg hwhole]
    refine (yields_int32 False.elim).bind ?_
    rintro count - ⟨rfl, -⟩
    refine takeMax_yields (by omega) hrun' (fun hmore => ?_) fun _ hten => by omega
    have hmore' : l.max < _ := hmore
    have happend := EntryUnder.append (by omega) (hrest.under.entry i (by omega))
      (hrest.under.entry (length - i) (by omega)) (by omega)
    rwa [Nat.add_sub_of_le hle] at happend

/-- A round returns and keeps what is known of the locals. -/
theorem cutRound_yields_under (hcalls : CallsUnder cutRod length) (hlo : 1 ≤ i) (hle : i ≤ length)
    (h : Running length i s l) :
    Yields False (Running length (i + 1) s) (cutRound cutRod length i l) := by
  have hrange : PRICERANGE = 11 := rfl
  rcases Nat.lt_trichotomy i 11 with hlt | rfl | hgt
  · exact priced_yields hcalls ⟨hlo, by omega⟩ hle h
  · -- For 11 neither branch is taken.
    rw [cutRound, if_neg (by decide), if_neg (by decide)]
    exact ⟨h.under, h.max_nonneg, h.frame, h.selected, fun hshort _ => h.positive hshort (by omega)⟩
  · exact unpriced_yields hcalls hgt hle h

end Loop

/-- `cut_rod` leaves entries that are right in the sense of `EntryUnder`, whenever it returns. -/
theorem cutRod_called (fuel length : Nat) (s : PerfectSolution) (hs : Under s) :
    Yields False (Called length s) (cutRod fuel length s) := by
  induction fuel generalizing length s with
  | zero => exact id
  | succ fuel ih =>
    rw [cutRod]
    split
    · exact ⟨hs, fun _ _ => rfl⟩
    · rename_i hlength
      split
      · exact ⟨hs, fun _ _ => rfl⟩
      · rename_i hprice
        have hpos : 0 < length := by omega
        have hzero : s.selectedPrice length = 0 := by
          have := (hs.entry length hpos).nonneg
          omega
        -- A call that finds a positive price changes nothing.
        have hcalls : CallsUnder (cutRod fuel) length := by
          refine ⟨ih, fun s hs => ?_⟩
          cases fuel with
          | zero => exact id
          | succ fuel =>
            rw [cutRod, if_neg (by omega), if_pos hs]
            rfl
        have hloop : Yields False (Running length (length + 1) s)
            (forUpM 1 (length + 1) (cutRound (cutRod fuel) length) ⟨0, s⟩) :=
          forUpM_yields (P := fun i => Running length i s) (show 1 ≤ length + 1 by omega)
            ⟨hs, Int.le_refl 0, fun _ _ => rfl, fun _ => hzero, fun _ hten => by omega⟩
            fun i l hlo hhi h => cutRound_yields_under hcalls hlo (by omega) h
        exact hloop.map fun l hl => ⟨hl.under, hl.frame⟩

/-! ### The theorem -/

/-- `cut_rod_proc` returns the greatest price without the cost of the cuts, and `cutCount` has the
number of cuts of a way to get it. -/
def CutCostRight (calloc : Bool) (n : Nat) : Prop :=
  ∃ fuel r s, cutRodProc fuel calloc n = some (r, s) ∧
    IsGreatest {t | ∃ l, PartsOf Priced n l ∧ net l = t} r ∧
    ∃ l, PartsOf Priced n l ∧ net l = r ∧ s.cutCount n = (l.length : Int) - 1

/-- A table that is returned was allocated and has entries that are known. -/
theorem initPerfectSolution_some {calloc : Bool} {length : Nat} {s : PerfectSolution}
    (h : initPerfectSolution calloc length = some s) : calloc = true ∧ Under s := by
  rw [initPerfectSolution] at h
  obtain ⟨_, -, h⟩ := Option.bind_eq_some_iff.mp h
  cases calloc with
  | false => cases h
  | true =>
    obtain rfl := Option.some.inj h
    exact ⟨rfl, rfl, fun k hk => EntryUnder.zero hk⟩

/-- The price of a rod that needs three pieces is too low. -/
theorem CutCostRight.not_threePieces {calloc : Bool} {n : Nat} (h : CutCostRight calloc n)
    (hn : 1 ≤ n) : calloc = true ∧ ¬ThreePieces n := by
  obtain ⟨fuel, r, s, hrun, hgreatest, -⟩ := h
  rw [cutRodProc] at hrun
  obtain ⟨s₀, hinit, hrun⟩ := Option.bind_eq_some_iff.mp hrun
  obtain ⟨hcalloc, hunder⟩ := initPerfectSolution_some hinit
  obtain ⟨s', hcut, hrun⟩ := Option.bind_eq_some_iff.mp hrun
  obtain ⟨rfl, rfl⟩ := Prod.mk.inj (Option.some.inj hrun)
  refine ⟨hcalloc, fun hthree => ?_⟩
  have hcalled := (cutRod_called fuel n s₀ hunder).of_eq_some hcut
  have hstrict := (hcalled.under.entry n hn).strict hthree
  have hequal := hgreatest.unique (bestNet_greatest n)
  omega

/-- The pieces of a rod of up to 20 units that needs at most two. -/
def twoPieces (n : Nat) : List Nat :=
  [[], [1], [2], [3], [2, 2], [2, 3], [6], [1, 6], [2, 6], [3, 6], [10], [1, 10], [2, 10], [3, 10],
    [4, 10], [], [6, 10], [7, 10], [], [9, 10], [10, 10]].getD n []

/-- The runs up to 20 units that need two pieces at most. -/
theorem run_twoPieces : ∀ n, n ≤ 20 → 1 ≤ n → ¬ThreePieces n →
    (cutRodProc 21 true n).map (fun out => (out.1, out.2.cutCount n))
      = some (bestNet n, ((twoPieces n).length : Int) - 1) := by
  decide +kernel

/-- The program is right where at most two pieces are needed. -/
theorem cutCost_right_iff (calloc : Bool) {n : Nat} (hn : 1 ≤ n) :
    CutCostRight calloc n ↔ calloc = true ∧ n ≤ 20 ∧ n ≠ 15 ∧ n ≠ 18 := by
  have hlengths : (n ≤ 20 ∧ n ≠ 15 ∧ n ≠ 18) ↔ ¬ThreePieces n := by
    rw [ThreePieces]
    omega
  rw [hlengths]
  refine ⟨fun h => h.not_threePieces hn, ?_⟩
  rintro ⟨rfl, htwo⟩
  have hle : n ≤ 20 := (hlengths.mpr htwo).1
  have htable : ∀ n, n ≤ 20 → ¬ThreePieces n → ((∀ p ∈ twoPieces n, Priced p) ∧
      (twoPieces n).sum = n) ∧ (1 ≤ n → net (twoPieces n) = bestNet n) := by decide
  obtain ⟨hparts, hnet⟩ := htable n hle htwo
  obtain ⟨⟨r, s⟩, hrun, hout⟩ := Option.map_eq_some_iff.mp (run_twoPieces n hle hn htwo)
  obtain ⟨hr, hcount⟩ := Prod.mk.inj hout
  refine ⟨21, r, s, hrun, ?_, twoPieces n, hparts, ?_, hcount⟩
  · rw [show r = bestNet n from hr]
    exact bestNet_greatest n
  · rw [hnet hn]
    exact hr.symm

/-- A rod of 20 units gets the right price and number of cuts. -/
theorem cutCost_right_twenty : CutCostRight true 20 :=
  (cutCost_right_iff true (by decide)).mpr ⟨rfl, by decide⟩

/-- A rod of 15 units: pieces of 2, 3 and 10 make 43, and with two cuts 41. The program returns
40. -/
theorem cutCost_wrong_fifteen : ¬CutCostRight true 15 ∧
    (cutRodProc 16 true 15).map (·.1) = some 40 ∧ net [2, 3, 10] = 41 := by
  refine ⟨fun h => (h.not_threePieces (by decide)).2 (by decide), ?_, by decide⟩
  decide +kernel

end LearnGit.Proofs.DynamicProgramming.CutRodSolution.CutCost
