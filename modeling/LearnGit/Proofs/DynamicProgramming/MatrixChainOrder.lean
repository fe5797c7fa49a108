import LearnGit.DynamicProgramming.MatrixChainOrder
import LearnGit.Lib.Bracketing
import LearnGit.Proofs.DynamicProgramming.AvoidRoads

/-!
# `LearnGit.Proofs.DynamicProgramming.MatrixChainOrder`: the best bracketing of a product

`matrixChainOrder_never`: the loops put the least number of multiplications into the table `m`, and
splits that stand for bracketings with the numbers in `m` into `s`. But no record with the tables is
ever returned, because it has not the room for its own fields.

The intervals are filled by their length (`Before`). A filled one has the least cost of its
bracketings and a split that attains it (`Done`), and the others have 0. The costs of the splits are
positive, and so the mark for an empty cell is met in the first round of an interval only
(`Chosen`).
-/

set_option autoImplicit false

namespace LearnGit.Proofs.DynamicProgramming.MatrixChainOrder

open LearnGit.Lib LearnGit.Lib.Bracketing
open LearnGit.DynamicProgramming.AvoidRoads (Table)
open LearnGit.DynamicProgramming.MatrixChainOrder
open LearnGit.Proofs.DynamicProgramming.AvoidRoads (read_of_lt write_of_lt setCell)

/-! ### The number of multiplications -/

/-- The product of `i` to `k` has as many rows as the matrix `i`, and that of `k + 1` to `j` as many
columns as the matrix `j`. -/
def multiplications (price : List Int) (i k j : Nat) : Int :=
  price.getD (i - 1) 0 * price.getD k 0 * price.getD j 0

section
variable {price : List Int}

/-- Every size of a matrix is positive. -/
theorem getD_pos (hpos : ∀ d ∈ price, 0 < d) {k : Nat} (hk : k < price.length) :
    0 < price.getD k 0 := by
  rw [List.getD_eq_getElem _ _ hk]
  exact hpos _ (List.getElem_mem hk)

/-- No size is negative, behind the end of the list neither. -/
theorem getD_nonneg (hpos : ∀ d ∈ price, 0 < d) (k : Nat) : 0 ≤ price.getD k 0 := by
  rcases Nat.lt_or_ge k price.length with hk | hk
  · exact (getD_pos hpos hk).le
  · rw [List.getD_eq_default _ _ hk]

/-- A product of two matrices takes one multiplication at least. -/
theorem multiplications_pos (hpos : ∀ d ∈ price, 0 < d) {i k j : Nat} (hik : i ≤ k) (hkj : k < j)
    (hj : j < price.length) : 0 < multiplications price i k j :=
  mul_pos (mul_pos (getD_pos hpos (by omega)) (getD_pos hpos (by omega))) (getD_pos hpos hj)

/-- No bracketing has a negative cost. -/
theorem cost_nonneg (hpos : ∀ d ∈ price, 0 < d) {i j : Nat} (t : Bracketing i j) :
    0 ≤ cost (multiplications price) t := by
  induction t with
  | leaf i => exact Int.le_refl 0
  | @node i k j left right ihl ihr =>
    have hnode : 0 ≤ multiplications price i k j :=
      mul_nonneg (mul_nonneg (getD_nonneg hpos _) (getD_nonneg hpos _)) (getD_nonneg hpos _)
    exact add_nonneg (add_nonneg ihl ihr) hnode

end

/-! ### The tables -/

/-- The sizes of the two tables. -/
structure Shape (n : Nat) (t : Tables) : Prop where
  mRows : t.m.rows = n + 1
  mColumns : t.m.columns = n
  sRows : t.s.rows = n
  sColumns : t.s.columns = n

/-- The tables with another cost and another split for an interval. -/
def assign (t : Tables) (i j : Nat) (x y : Int) : Tables :=
  ⟨{ t.m with cell := setCell t.m.cell i j x }, { t.s with cell := setCell t.s.cell i j y }⟩

/-- The cell that was stored is read back. -/
theorem setCell_self (c : Nat → Nat → Int) (i j : Nat) (x : Int) : setCell c i j x i j = x :=
  if_pos ⟨rfl, rfl⟩

/-- The other cells stay. -/
theorem setCell_of_ne (c : Nat → Nat → Int) {i j a b : Nat} (x : Int) (h : ¬(a = i ∧ b = j)) :
    setCell c i j x a b = c a b := if_neg h

/-- Of two stores in one cell the last one counts. -/
theorem setCell_setCell (c : Nat → Nat → Int) (i j : Nat) (x y : Int) :
    setCell (setCell c i j x) i j y = setCell c i j y := by
  funext a b
  rw [setCell, setCell, setCell]
  split <;> rfl

/-- Storing what a cell has changes nothing. -/
theorem setCell_eq_self (c : Nat → Nat → Int) (i j : Nat) : setCell c i j (c i j) = c := by
  funext a b
  rw [setCell]
  split
  · rename_i h
    rw [h.1, h.2]
  · rfl

section
variable {n i j : Nat} {t : Tables}

/-- A store keeps the sizes of the tables. -/
theorem Shape.assign (h : Shape n t) (x y : Int) : Shape n (assign t i j x y) :=
  ⟨h.mRows, h.mColumns, h.sRows, h.sColumns⟩

/-- Storing what both tables have changes nothing. -/
theorem assign_self (t : Tables) (i j : Nat) :
    assign t i j (t.m.cell i j) (t.s.cell i j) = t := by
  rw [MatrixChainOrder.assign, setCell_eq_self, setCell_eq_self]

/-- Of two stores in one pair of cells the last one counts. -/
theorem assign_assign (x y x' y' : Int) :
    assign (assign t i j x y) i j x' y' = assign t i j x' y' := by
  rw [MatrixChainOrder.assign, MatrixChainOrder.assign, MatrixChainOrder.assign, setCell_setCell,
    setCell_setCell]

end

/-! ### One interval -/

/-- The costs of the splits of an interval. -/
def splits (price : List Int) (t : Tables) (i j k : Nat) : Int :=
  splitCost (multiplications price) t.m.cell i k j

/-- One round, where the cell of the interval has `x` and `y`. -/
theorem splitRound_assign {price : List Int} {t : Tables} {i j k : Nat}
    (h : Shape price.length t) (hi : 1 ≤ i) (hik : i ≤ k) (hkj : k < j) (hj : j < price.length)
    (x y : Int) : splitRound price i j k (assign t i j x y) = some
      (if splits price t i j k < x ∨ x = 0 then assign t i j (splits price t i j k) k
        else assign t i j x y) := by
  obtain ⟨hmr, hmc, hsr, hsc⟩ := h.assign (i := i) (j := j) x y
  have hleft : (assign t i j x y).m.cell i k = t.m.cell i k := setCell_of_ne _ _ (by omega)
  have hright : (assign t i j x y).m.cell (k + 1) j = t.m.cell (k + 1) j :=
    setCell_of_ne _ _ (by omega)
  have hhere : (assign t i j x y).m.cell i j = x := setCell_self _ _ _ _
  have hrows : i - 1 < price.length := by omega
  have hinner : k < price.length := by omega
  have hcost : t.m.cell i k + t.m.cell (k + 1) j + price[i - 1] * price[k] * price[j]
      = splits price t i j k := by
    rw [splits, splitCost, multiplications, List.getD_eq_getElem _ _ hrows,
      List.getD_eq_getElem _ _ hinner, List.getD_eq_getElem _ _ hj]
  rw [splitRound, read_of_lt (by omega) (by omega), read_of_lt (by omega) (by omega),
    read_of_lt (by omega) (by omega), List.getElem?_eq_getElem hrows,
    List.getElem?_eq_getElem hinner, List.getElem?_eq_getElem hj, hleft, hright, hhere]
  show (if _ < x ∨ x = 0 then _ else _) = _
  rw [hcost]
  split
  · rw [write_of_lt (by omega) (by omega), write_of_lt (by omega) (by omega)]
    exact congrArg some (assign_assign x y _ _)
  · rfl

/-- What is chosen of the splits before `k`. -/
def Chosen (f : Nat → Int) (i k : Nat) (x y : Int) : Prop :=
  k = i ∧ x = 0 ∨ ∃ a, i ≤ a ∧ a < k ∧ y = a ∧ x = f a ∧ ∀ b, i ≤ b → b < k → x ≤ f b

/-- A split that costs less, or the first one, is the least so far. -/
theorem Chosen.next {f : Nat → Int} {i k : Nat} {x y : Int} (h : Chosen f i k x y) (hik : i ≤ k)
    (hpos : ∀ b, i ≤ b → b ≤ k → 0 < f b) :
    f k < x ∨ x = 0 → Chosen f i (k + 1) (f k) k := by
  intro hlow
  refine .inr ⟨k, hik, Nat.lt_succ_self k, rfl, rfl, fun b hib hbk => ?_⟩
  rcases Nat.lt_succ_iff_lt_or_eq.mp hbk with hlt | rfl
  · rcases h with ⟨rfl, -⟩ | ⟨a, hia, hak, -, hx, hmin⟩
    · omega
    · -- The cell is not empty any more, and so the new cost is less than all before it.
      have hxb := hmin b hib hlt
      have hxpos : 0 < x := hx ▸ hpos a hia (by omega)
      omega
  · exact Int.le_refl _

/-- A split that does not cost less leaves the choice as it is. -/
theorem Chosen.keep {f : Nat → Int} {i k : Nat} {x y : Int} (h : Chosen f i k x y)
    (hhigh : ¬(f k < x ∨ x = 0)) : Chosen f i (k + 1) x y := by
  rw [not_or] at hhigh
  rcases h with ⟨-, rfl⟩ | ⟨a, hia, hak, hy, hx, hmin⟩
  · -- An empty cell takes every cost.
    exact absurd rfl hhigh.2
  · refine .inr ⟨a, hia, by omega, hy, hx, fun b hib hbk => ?_⟩
    rcases Nat.lt_succ_iff_lt_or_eq.mp hbk with hlt | rfl
    · exact hmin b hib hlt
    · omega

/-- The rounds of an interval choose its best split. -/
theorem splitRounds_chosen {price : List Int} {t : Tables} {i j : Nat}
    (h : Shape price.length t) (hi : 1 ≤ i) (hij : i < j) (hj : j < price.length)
    (hempty : t.m.cell i j = 0) (hpos : ∀ b, i ≤ b → b < j → 0 < splits price t i j b) :
    ∃ x y, forUpM i j (fun k => splitRound price i j k) t = some (assign t i j x y) ∧
      Chosen (splits price t i j) i j x y := by
  obtain ⟨t', hloop, x, y, rfl, hchosen⟩ := forUpM_induct
    (P := fun k t' => ∃ x y, t' = assign t i j x y ∧ Chosen (splits price t i j) i k x y)
    (Nat.le_of_lt hij) ⟨_, _, (assign_self t i j).symm, .inl ⟨rfl, hempty⟩⟩ (by
      rintro k _ hik hkj ⟨x, y, rfl, hchosen⟩
      refine ⟨_, splitRound_assign h hi hik hkj hj x y, ?_⟩
      by_cases hlow : splits price t i j k < x ∨ x = 0
      · rw [if_pos hlow]
        exact ⟨_, _, rfl, hchosen.next hik (fun b hib hbk => hpos b hib (by omega)) hlow⟩
      · rw [if_neg hlow]
        exact ⟨x, y, rfl, hchosen.keep hlow⟩)
  exact ⟨x, y, hloop, hchosen⟩

/-! ### All intervals -/

/-- The intervals that are filled before the round of `l` and `i`. -/
def Before (l i a b : Nat) : Prop := b + 1 < a + l ∨ b + 1 = a + l ∧ a < i

/-- The interval has the least cost, and a split that attains it. -/
structure Done (price : List Int) (t : Tables) (a b : Nat) : Prop where
  least : IsLeast (costs (multiplications price) a b) (t.m.cell a b)
  split : a < b → ∃ k, a ≤ k ∧ k < b ∧ t.s.cell a b = k ∧ t.m.cell a b = splits price t a b k

/-- An interval that is not a part of another one stays as it is. -/
theorem Done.assign {price : List Int} {t : Tables} {i j a b : Nat}
    (h : Done price t a b) (hne : ¬(a = i ∧ b = j)) (hshort : b + i ≤ j + a) (x y : Int) :
    Done price (assign t i j x y) a b := by
  have hm : ∀ {c d}, ¬(c = i ∧ d = j) →
      (MatrixChainOrder.assign t i j x y).m.cell c d = t.m.cell c d := fun h => setCell_of_ne _ _ h
  refine ⟨?_, fun hab => ?_⟩
  · rw [hm hne]
    exact h.least
  · obtain ⟨k, hak, hkb, hs, hcost⟩ := h.split hab
    refine ⟨k, hak, hkb, (setCell_of_ne _ _ hne).trans hs, ?_⟩
    rw [hm hne, hcost, splits, splits, splitCost, splitCost, hm (by omega), hm (by omega)]

/-- The interval that the rounds have chosen a split for. -/
theorem done_of_chosen {price : List Int} {t : Tables} {i j : Nat} {x y : Int}
    (hij : i < j) (hleft : ∀ a, i ≤ a → a < j → Done price t i a)
    (hright : ∀ a, i ≤ a → a < j → Done price t (a + 1) j)
    (hchosen : Chosen (splits price t i j) i j x y) : Done price (assign t i j x y) i j := by
  obtain ⟨hfirst, -⟩ | ⟨k, hik, hkj, hy, hx, hmin⟩ := hchosen
  · omega
  -- The cells of the parts are as they were.
  have hparts : splits price (assign t i j x y) i j k = splits price t i j k := by
    rw [splits, splits, splitCost, splitCost]
    exact congrArg (· + _) (congrArg₂ (· + ·) (setCell_of_ne _ _ (by omega))
      (setCell_of_ne _ _ (by omega)))
  refine ⟨?_, fun _ => ⟨k, hik, hkj, (setCell_self _ _ _ _).trans hy, ?_⟩⟩
  · rw [show (assign t i j x y).m.cell i j = x from setCell_self _ _ _ _, hx]
    rw [hx] at hmin
    exact isLeast_costs_of_split hik hkj (fun c hic hcj => (hleft c hic hcj).least)
      (fun c hic hcj => (hright c hic hcj).least) hmin
  · rw [hparts, ← hx]
    exact setCell_self _ _ _ _

/-- The tables before the round of `l` and `i`. -/
structure Filled (price : List Int) (l i : Nat) (t : Tables) : Prop where
  shape : Shape price.length t
  done : ∀ a b, 1 ≤ a → a ≤ b → b < price.length → Before l i a b → Done price t a b
  empty : ∀ a b, ¬Before l i a b → t.m.cell a b = 0

section
variable {price : List Int} {l i : Nat} {t : Tables}

/-- Behind their allocation the tables are right for chains of one matrix. -/
theorem filled_start : Filled price 2 1 (Tables.zero price.length) := by
  refine ⟨⟨rfl, rfl, rfl, rfl⟩, fun a b ha hab hb hbefore => ?_, fun _ _ _ => rfl⟩
  have hself : a = b := by
    rw [Before] at hbefore
    omega
  subst hself
  exact ⟨isLeast_costs_self _ a, fun hlt => absurd hlt (Nat.lt_irrefl a)⟩

/-- When every chain of a length is done the next length starts. -/
theorem Filled.next_length (hl : l ≤ price.length)
    (h : Filled price l (price.length - l + 1) t) : Filled price (l + 1) 1 t := by
  refine ⟨h.shape, fun a b ha hab hb hbefore => ?_, fun a b hbefore => ?_⟩
  · refine h.done a b ha hab hb ?_
    rw [Before] at hbefore ⊢
    omega
  · refine h.empty a b ?_
    rw [Before] at hbefore ⊢
    omega

/-- The round of an interval. -/
theorem Filled.next (hpos : ∀ d ∈ price, 0 < d) (hl : 2 ≤ l) (hi : 1 ≤ i)
    (hj : i + l - 1 < price.length) (h : Filled price l i t) :
    ∃ t', forUpM i (i + l - 1) (fun k => splitRound price i (i + l - 1) k) t = some t' ∧
      Filled price l (i + 1) t' := by
  obtain ⟨j, hjl⟩ : ∃ j, j = i + l - 1 := ⟨_, rfl⟩
  rw [← hjl] at hj ⊢
  have hleft : ∀ a, i ≤ a → a < j → Done price t i a := fun a hia haj =>
    h.done i a hi hia (by omega) (by rw [Before]; omega)
  have hright : ∀ a, i ≤ a → a < j → Done price t (a + 1) j := fun a hia haj =>
    h.done (a + 1) j (by omega) (by omega) hj (by rw [Before]; omega)
  have hnonneg : ∀ {a b}, Done price t a b → 0 ≤ t.m.cell a b := by
    intro a b hdone
    obtain ⟨tree, htree⟩ := hdone.least.1
    exact htree ▸ cost_nonneg hpos tree
  -- No cost is taken for the mark of an empty cell.
  have hsplits : ∀ b, i ≤ b → b < j → 0 < splits price t i j b := by
    intro b hib hbj
    have hl0 := hnonneg (hleft b hib hbj)
    have hr0 := hnonneg (hright b hib hbj)
    have hnode := multiplications_pos hpos hib hbj hj
    rw [splits, splitCost]
    omega
  have hempty : t.m.cell i j = 0 := h.empty i j (by rw [Before]; omega)
  obtain ⟨x, y, hloop, hchosen⟩ := splitRounds_chosen h.shape hi (by omega) hj hempty hsplits
  refine ⟨_, hloop, h.shape.assign x y, fun a b ha hab hb hbefore => ?_, fun a b hbefore => ?_⟩
  · by_cases hself : a = i ∧ b = j
    · obtain ⟨rfl, rfl⟩ := hself
      exact done_of_chosen (by omega) hleft hright hchosen
    · have hold : Before l i a b := by
        rw [Before] at hbefore ⊢
        omega
      refine (h.done a b ha hab hb hold).assign hself ?_ x y
      rw [Before] at hold
      omega
  · refine (setCell_of_ne _ _ ?_).trans (h.empty a b ?_)
    · rw [Before] at hbefore
      omega
    · rw [Before] at hbefore ⊢
      omega

/-- The loops return tables that are right for every chain. -/
theorem fillTables_filled (hpos : ∀ d ∈ price, 0 < d) (hlen : 2 ≤ price.length)
    (h : Filled price 2 1 t) :
    ∃ t', fillTables price t = some t' ∧ Filled price (price.length + 1) 1 t' := by
  refine forUpM_induct (P := fun l t => Filled price l 1 t) (by omega) h ?_
  intro l t hl hhi hfilled
  obtain ⟨t', hloop, hrow⟩ := forUpM_induct (P := fun i t => Filled price l i t)
    (show 1 ≤ price.length - l + 1 by omega) hfilled
    fun i t hi hhi h => h.next hpos hl hi (by omega)
  exact ⟨t', hloop, hrow.next_length (by omega)⟩

end

/-! ### The result -/

/-- `m[1][length - 1]` is the least number of multiplications, and to split again and again at
`s[i][j]` gives a bracketing with the number `m[i][j]`. -/
def Optimal (price : List Int) (m s : Table) : Prop :=
  IsLeast (costs (multiplications price) 1 (price.length - 1)) (m.cell 1 (price.length - 1)) ∧
    ∀ i j, 1 ≤ i → i < j → j ≤ price.length - 1 →
      (∃ tree : Bracketing i j, AtSplits s.cell tree) ∧
      ∀ tree : Bracketing i j, AtSplits s.cell tree →
        cost (multiplications price) tree = m.cell i j

/-- A record with such tables is returned. -/
def ReturnsOptimal (calloc : Nat → Bool) (price : List Int) : Prop :=
  ∃ order, matrixChainOrder calloc price = some (some order) ∧ Optimal price order.m order.s

/-- The loops fill the tables as they should. -/
theorem fillTables_optimal {price : List Int} (hlen : 2 ≤ price.length)
    (hpos : ∀ d ∈ price, 0 < d) :
    ∃ t, fillTables price (Tables.zero price.length) = some t ∧ Optimal price t.m t.s := by
  obtain ⟨t, hrun, hfilled⟩ := fillTables_filled hpos hlen filled_start
  have hdone : ∀ a b, 1 ≤ a → a ≤ b → b ≤ price.length - 1 → Done price t a b := by
    intro a b ha hab hb
    exact hfilled.done a b ha hab (by omega) (.inl (by omega))
  have htable : SplitTable (multiplications price) t.m.cell t.s.cell 1 (price.length - 1) := by
    refine ⟨fun a ha hb => ?_, fun a b ha hab hb => (hdone a b ha (by omega) hb).split hab⟩
    exact (hdone a a ha (Nat.le_refl a) hb).least.unique (isLeast_costs_self _ a)
  refine ⟨t, hrun, (hdone 1 _ (by omega) (by omega) (by omega)).least, fun i j hi hij hj => ⟨?_, ?_⟩⟩
  · exact htable.exists_atSplits hi (Nat.le_of_lt hij) hj
  · intro tree htree
    exact htable.cost_eq tree htree hi hj

/-- The record is complete in a block that its last field fits. -/
theorem makeOrder_eq (block : Nat) (m s : Table) (length : Nat) :
    makeOrder block m s length
      = if 32 ≤ block then some ⟨m, length, length, s, length - 1, length - 1⟩ else none := by
  by_cases hblock : 32 ≤ block
  · have hstore : ∀ field, storeField block field = some () := by
      intro field
      refine if_pos ?_
      cases field <;> exact Nat.le_trans (by decide) hblock
    rw [if_pos hblock, makeOrder]
    simp only [hstore]
    rfl
  · have hlast : storeField block .sWidth = none := if_neg hblock
    rw [if_neg hblock, makeOrder, hlast]
    simp

/-- A block with the size of a pointer has no room for the record. -/
theorem makeOrder_pointer (m s : Table) (length : Nat) :
    makeOrder SIZEOF_POINTER m s length = none := by
  rw [makeOrder_eq, if_neg (by decide)]

/-- No run returns a record: it returns a null pointer where an allocation fails, and is undefined
where none does. -/
theorem matrixChainOrder_no_order (calloc : Nat → Bool) (price : List Int)
    (order : ChainOptimalOrder) : matrixChainOrder calloc price ≠ some (some order) := by
  intro h
  rw [matrixChainOrder] at h
  split at h
  · exact nomatch h
  split at h
  · exact nomatch h
  cases hfill : fillTables price (Tables.zero price.length) with
  | none =>
    rw [hfill] at h
    exact nomatch h
  | some t =>
    rw [hfill] at h
    simp only [Option.bind_eq_bind, Option.bind_some, makeOrder_pointer, Option.bind_none] at h
    split at h
    · exact nomatch h
    · exact nomatch h

/-- No record is returned, and the run is undefined where all allocations succeed. The tables that
the record was made for are right. -/
theorem matrixChainOrder_never (calloc : Nat → Bool) {price : List Int} (hlen : 2 ≤ price.length)
    (hpos : ∀ d ∈ price, 0 < d) :
    ¬ReturnsOptimal calloc price ∧ matrixChainOrder (fun _ => true) price = none ∧
      ∃ t, fillTables price (Tables.zero price.length) = some t ∧ Optimal price t.m t.s := by
  have htables := fillTables_optimal hlen hpos
  refine ⟨?_, ?_, htables⟩
  · rintro ⟨order, horder, -⟩
    exact matrixChainOrder_no_order calloc price order horder
  · obtain ⟨t, hfill, -⟩ := htables
    rw [matrixChainOrder, if_neg (by omega), if_neg (not_not.mpr fun _ _ => rfl), hfill]
    simp only [Option.bind_eq_bind, Option.bind_some, makeOrder_pointer, Option.bind_none, if_true]

/-- The product of two matrices. -/
theorem matrixChainOrder_never_two :
    ¬ReturnsOptimal (fun _ => true) [10, 20, 30] ∧
      matrixChainOrder (fun _ => true) [10, 20, 30] = none ∧
      ∃ t, fillTables [10, 20, 30] (Tables.zero 3) = some t ∧ Optimal [10, 20, 30] t.m t.s :=
  matrixChainOrder_never _ (show 2 ≤ [(10 : Int), 20, 30].length by decide) (by decide)

/-- No record is returned for the product of two matrices. -/
theorem two_matrices_undefined : ¬ReturnsOptimal (fun _ => true) [10, 20, 30] := by
  rintro ⟨order, horder, -⟩
  exact matrixChainOrder_no_order _ _ order horder

end LearnGit.Proofs.DynamicProgramming.MatrixChainOrder
