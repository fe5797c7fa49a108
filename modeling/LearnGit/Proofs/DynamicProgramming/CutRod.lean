import LearnGit.DynamicProgramming.CutRod

/-!
# `LearnGit.Proofs.DynamicProgramming.CutRod`: three ways to the same price

`cutRod_agree`: the memoized and the bottom-up program return what the recursive one does, for any
prices. Where no price is negative, that is the greatest total over the compositions of the length.

The memo table is related to the recursive program by `Memo`: each entry is 0 or the value of
`cut_rod`. A value of 0 is computed again each time, and the result is the same.
-/

set_option autoImplicit false

namespace LearnGit.Proofs.DynamicProgramming.CutRod

open LearnGit.Lib
open LearnGit.DynamicProgramming.CutRod hiding max

variable {price : Nat → Int}

/-- The program's `max` is the greater of two numbers. -/
theorem max_eq (a b : Int) : LearnGit.DynamicProgramming.CutRod.max a b = max b a := by
  rw [LearnGit.DynamicProgramming.CutRod.max, max_def]
  split <;> split <;> omega

/-- The loop of `cut_rod` runs for a length of 0 too, without a round. -/
theorem cutRod_eq (length : Nat) : cutRod price length = forUp 1 (length + 1)
    (fun i _ _ q => LearnGit.DynamicProgramming.CutRod.max q
      (price i + cutRod price (length - i))) 0 := by
  rw [cutRod]
  split
  · rename_i hle
    rw [forUp_of_le (by omega)]
  · rfl

/-- A rod of length 0 brings nothing. -/
theorem cutRod_zero : cutRod price 0 = 0 := by
  rw [cutRod, if_pos (Nat.le_refl 0)]

/-! ### The tables -/

/-- Each entry was not computed, or it is the value of `cut_rod`. -/
def Memo (price table : Nat → Int) : Prop := ∀ k, table k = 0 ∨ table k = cutRod price k

/-- The memoized recursion returns the value of the plain one and keeps the memo right. -/
theorem memoizedCutRodAux_spec (length : Nat) : ∀ table, Memo price table →
    (memoizedCutRodAux price length table).q = cutRod price length ∧
      Memo price (memoizedCutRodAux price length table).subproblemMethod := by
  induction length using Nat.strong_induction_on with
  | _ length ih =>
    intro table hmemo
    rw [memoizedCutRodAux]
    split
    · -- A positive entry was computed.
      rename_i hpos
      rcases hmemo length with hzero | hvalue
      · omega
      · exact ⟨hvalue, hmemo⟩
    · -- The loop is in step with the one of `cut_rod`, and each call in it keeps the table sound.
      obtain ⟨hq, htable⟩ := forUp_rel
        (R := fun (s : TableLocals) q => s.q = q ∧ Memo price s.subproblemMethod)
        (s := ⟨0, table⟩) (t := 0)
        (f := fun i (_ : 1 ≤ i) (_ : i < length + 1) s =>
          let r := memoizedCutRodAux price (length - i) s.subproblemMethod
          ⟨LearnGit.DynamicProgramming.CutRod.max s.q (price i + r.q), r.subproblemMethod⟩)
        (g := fun i _ _ q => LearnGit.DynamicProgramming.CutRod.max q
          (price i + cutRod price (length - i)))
        ⟨rfl, hmemo⟩ (by
          rintro i hlo hhi s q ⟨rfl, hs⟩
          obtain ⟨hvalue, htable⟩ := ih (length - i) (by omega) s.subproblemMethod hs
          exact ⟨by dsimp only; rw [hvalue], htable⟩)
      rw [← cutRod_eq] at hq
      refine ⟨hq, ?_⟩
      -- The value is stored at `length`, even where it is 0 and will be computed again.
      intro k
      by_cases hk : k = length
      · refine Or.inr ?_
        dsimp only
        rw [hk, Function.update_self]
        exact hq
      · dsimp only
        rw [Function.update_of_ne hk]
        exact htable k

/-- The memoized function agrees with the plain one. -/
theorem memoizedCutRod_eq (length : Nat) :
    memoizedCutRod true price length = cutRod price length := by
  rw [memoizedCutRod]
  split
  · rename_i hle
    rw [Nat.le_zero.mp hle, cutRod_zero]
  · exact (memoizedCutRodAux_spec length _ fun _ => Or.inl rfl).1

/-- A round makes the next entry of the table right. -/
theorem bottomUpRound_spec {j : Nat} {table : Nat → Int}
    (h : ∀ k < j, table k = cutRod price k) :
    ∀ k < j + 1, bottomUpRound price j table k = cutRod price k := by
  intro k hk
  rcases Nat.lt_succ_iff_lt_or_eq.mp hk with hk | rfl
  · rw [bottomUpRound, Function.update_of_ne (by omega)]
    exact h k hk
  · -- The entry for `k` comes from a loop that reads smaller entries only.
    rw [bottomUpRound, Function.update_self, cutRod_eq]
    refine forUp_rel (R := Eq) rfl ?_
    rintro i hlo hhi s _ rfl
    rw [h (k - i) (by omega)]

/-- The bottom-up function agrees with the plain one. -/
theorem bottomUpCutRod_eq (length : Nat) :
    bottomUpCutRod true price length = cutRod price length := by
  rw [bottomUpCutRod]
  split
  · rename_i hle
    rw [Nat.le_zero.mp hle, cutRod_zero]
  · rw [if_pos rfl]
    refine forUp_induct (P := fun j (table : Nat → Int) => ∀ k < j, table k = cutRod price k)
      (Nat.le_add_left 1 length) ?_ ?_ length (Nat.lt_succ_self length)
    · intro k hk
      rw [Nat.lt_one_iff.mp hk, cutRod_zero]
    · intro j _ _ table h
      exact bottomUpRound_spec h

/-! ### The greatest total -/

/-- The totals of the ways to cut the rod. -/
def totals (price : Nat → Int) (length : Nat) : Set Int :=
  {t | ∃ c : Composition length, (c.blocks.map price).sum = t}

/-- What `cut_rod` returns is the greatest of 0 and the prices with a first piece. -/
theorem cutRod_isGreatest (price : Nat → Int) (length : Nat) :
    IsGreatest (insert 0 {t | ∃ i, 1 ≤ i ∧ i < length + 1 ∧
      t = price i + cutRod price (length - i)}) (cutRod price length) := by
  rw [cutRod_eq]
  refine forUp_induct (P := fun j q => IsGreatest (insert 0 {t | ∃ i, 1 ≤ i ∧ i < j ∧
    t = price i + cutRod price (length - i)}) q) (Nat.le_add_left 1 length) ?_ ?_
  · have hnone : {t | ∃ i, 1 ≤ i ∧ i < 1 ∧ t = price i + cutRod price (length - i)} = ∅ := by
      refine Set.eq_empty_of_forall_notMem ?_
      rintro t ⟨i, hlo, hhi, -⟩
      omega
    rw [hnone, insert_empty_eq]
    exact isGreatest_singleton
  · intro j hlo hhi q hq
    have hround : {t | ∃ i, 1 ≤ i ∧ i < j + 1 ∧ t = price i + cutRod price (length - i)}
        = insert (price j + cutRod price (length - j))
          {t | ∃ i, 1 ≤ i ∧ i < j ∧ t = price i + cutRod price (length - i)} := by
      ext t
      constructor
      · rintro ⟨i, h1, hi, rfl⟩
        rcases Nat.lt_succ_iff_lt_or_eq.mp hi with hi | rfl
        · exact Set.mem_insert_of_mem _ ⟨i, h1, hi, rfl⟩
        · exact Set.mem_insert _ _
      · rintro (rfl | ⟨i, h1, hi, rfl⟩)
        · exact ⟨j, hlo, Nat.lt_succ_self j, rfl⟩
        · exact ⟨i, h1, Nat.lt_succ_of_lt hi, rfl⟩
    rw [hround, Set.insert_comm, max_eq]
    exact hq.insert _

/-- The first piece and the rest. -/
theorem totals_cons {length i : Nat} {t : Int} (hlo : 1 ≤ i) (hhi : i ≤ length)
    (h : t ∈ totals price (length - i)) : price i + t ∈ totals price length := by
  obtain ⟨c, rfl⟩ := h
  refine ⟨⟨i :: c.blocks, ?_, ?_⟩, ?_⟩
  · intro b hb
    rcases List.mem_cons.mp hb with rfl | hb
    · exact hlo
    · exact c.blocks_pos hb
  · rw [List.sum_cons, c.blocks_sum]
    exact Nat.add_sub_of_le hhi
  · rw [List.map_cons, List.sum_cons]

/-- The pieces of a rod are a first one and those of the rest. -/
theorem exists_first {length : Nat} {t : Int} (hlength : 0 < length)
    (h : t ∈ totals price length) : ∃ i, 1 ≤ i ∧ i ≤ length ∧
      ∃ rest ∈ totals price (length - i), t = price i + rest := by
  obtain ⟨⟨blocks, hpos, hsum⟩, rfl⟩ := h
  cases blocks with
  | nil => simp at hsum; omega
  | cons i blocks =>
    rw [List.sum_cons] at hsum
    refine ⟨i, hpos List.mem_cons_self, by omega, _, ⟨⟨blocks, ?_, by omega⟩, rfl⟩, ?_⟩
    · intro b hb
      exact hpos (List.mem_cons_of_mem i hb)
    · rw [List.map_cons, List.sum_cons]

/-- A rod of length 0 has no pieces. -/
theorem totals_zero : totals price 0 = {0} := by
  ext t
  constructor
  · rintro ⟨⟨blocks, hpos, hsum⟩, rfl⟩
    cases blocks with
    | nil => rfl
    | cons i blocks =>
      have hi := hpos List.mem_cons_self
      rw [List.sum_cons] at hsum
      omega
  · rintro rfl
    exact ⟨⟨[], by simp, rfl⟩, rfl⟩

/-- The recursion returns the greatest price of the pieces. -/
theorem cutRod_greatest (length : Nat) (hprice : ∀ i ≤ length, 0 ≤ price i) :
    IsGreatest (totals price length) (cutRod price length) := by
  induction length using Nat.strong_induction_on with
  | _ length ih =>
    rcases Nat.eq_zero_or_pos length with rfl | hlength
    · rw [totals_zero, cutRod_zero]
      exact isGreatest_singleton
    have hrest : ∀ i, 1 ≤ i → i ≤ length →
        IsGreatest (totals price (length - i)) (cutRod price (length - i)) := by
      intro i hlo hhi
      exact ih (length - i) (by omega) fun k hk => hprice k (by omega)
    obtain ⟨hmem, hmax⟩ := cutRod_isGreatest price length
    constructor
    · rcases hmem with hzero | ⟨i, hlo, hhi, heq⟩
      · -- The rod is worth nothing, and then it is so in one piece.
        have hwhole : price length + cutRod price (length - length) ≤ cutRod price length :=
          hmax (Set.mem_insert_of_mem _ ⟨length, hlength, Nat.lt_succ_self length, rfl⟩)
        have hfree := hprice length (Nat.le_refl length)
        have hnone : cutRod price (length - length) = 0 := by
          rw [Nat.sub_self, cutRod_zero]
        have hpiece : cutRod price length = price length + cutRod price (length - length) := by
          omega
        rw [hpiece]
        exact totals_cons hlength (Nat.le_refl length) (hrest length hlength (Nat.le_refl length)).1
      · rw [heq]
        exact totals_cons hlo (Nat.le_of_lt_succ hhi) (hrest i hlo (Nat.le_of_lt_succ hhi)).1
    · -- The first piece of a way to cut is one that the loop tries.
      intro t ht
      obtain ⟨i, hlo, hhi, rest, hin, rfl⟩ := exists_first hlength ht
      calc price i + rest ≤ price i + cutRod price (length - i) :=
            Int.add_le_add_left ((hrest i hlo hhi).2 hin) _
        _ ≤ cutRod price length :=
            hmax (Set.mem_insert_of_mem _ ⟨i, hlo, Nat.lt_succ_of_le hhi, rfl⟩)

/-! ### The theorem -/

/-- The three programs return the same price, and where no price is negative it is the greatest
total over the ordered sums of positive parts. -/
theorem cutRod_agree (price : Nat → Int) (length : Nat) :
    memoizedCutRod true price length = cutRod price length ∧
      bottomUpCutRod true price length = cutRod price length ∧
      ((∀ i ≤ length, 0 ≤ price i) →
        IsGreatest {t | ∃ c : Composition length, (c.blocks.map price).sum = t}
          (cutRod price length)) :=
  ⟨memoizedCutRod_eq length, bottomUpCutRod_eq length, cutRod_greatest length⟩

/-- The price table of the programs. -/
theorem cutRod_agree_price :
    IsGreatest {t | ∃ c : Composition 10, (c.blocks.map
        fun i => [0, 1, 5, 8, 9, 10, 17, 17, 20, 24, 30].getD i 0).sum = t}
      (cutRod (fun i => [0, 1, 5, 8, 9, 10, 17, 17, 20, 24, 30].getD i 0) 10) :=
  (cutRod_agree (fun i => [0, 1, 5, 8, 9, 10, 17, 17, 20, 24, 30].getD i 0) 10).2.2 (by decide)

end LearnGit.Proofs.DynamicProgramming.CutRod
