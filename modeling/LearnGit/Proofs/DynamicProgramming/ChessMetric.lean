import LearnGit.DynamicProgramming.ChessMetric
import LearnGit.Lib.Walks
import Mathlib.Algebra.BigOperators.Fin
import Mathlib.Algebra.BigOperators.Intervals
import Mathlib.Data.List.GetD
import Mathlib.Tactic.Linarith

/-!
# `LearnGit.Proofs.DynamicProgramming.ChessMetric`: the table counts walks

`howMany_counts`: for every board and all squares on it, `howMany` returns the number of the walks
of a king's and a knight's moves that stay on the board, and this number is the same in both
directions.

The program pushes the numbers of one layer of the table along all moves to the next one. A round of
the three inner loops adds what comes by one move, and a loop adds the sum of what its rounds add
(`Pushed.loop`), so that the layer behind them has the sum over the squares and moves before the
last move (`Within.ncard_walks_succ`).
-/

set_option autoImplicit false

namespace LearnGit.Proofs.DynamicProgramming.ChessMetric

open LearnGit.Lib
open LearnGit.DynamicProgramming.ChessMetric

/-! ### Statement -/

/-- A king's or a knight's move, as what it adds to the coordinates. -/
def IsMove (d : Int × Int) : Prop :=
  (d.1.natAbs ≤ 1 ∧ d.2.natAbs ≤ 1 ∧ d ≠ (0, 0)) ∨
    (d.1.natAbs = 1 ∧ d.2.natAbs = 2) ∨ (d.1.natAbs = 2 ∧ d.2.natAbs = 1)

/-- A square of the board. -/
def OnBoard (size : Nat) (p : Nat × Nat) : Prop := p.1 < size ∧ p.2 < size

/-- The move `d` leads from `p` to the square `q` of the board. -/
def Move (size : Nat) (p : Nat × Nat) (d : Int × Int) (q : Nat × Nat) : Prop :=
  IsMove d ∧ (q.1 : Int) = p.1 + d.1 ∧ (q.2 : Int) = p.2 + d.2 ∧ OnBoard size q

/-- The square as the code has it. -/
def square (p : Nat × Nat) : Int × Int := (p.1, p.2)

instance (size : Nat) (p : Nat × Nat) : Decidable (OnBoard size p) := by
  unfold OnBoard
  infer_instance

instance (d : Int × Int) : Decidable (IsMove d) := by
  unfold IsMove
  infer_instance

instance (size : Nat) (p : Nat × Nat) (d : Int × Int) (q : Nat × Nat) :
    Decidable (Move size p d q) := by
  unfold Move
  infer_instance

/-! ### The moves -/

variable {size : Nat}

/-- Every entry of the array is a move. -/
theorem isMove_of_mem : ∀ d ∈ next_step_arr, IsMove d := by decide

/-- No move is listed twice. -/
theorem nodup_next_step_arr : next_step_arr.Nodup := by decide

/-- The array lists the moves. -/
theorem mem_next_step_arr (d : Int × Int) : d ∈ next_step_arr ↔ IsMove d := by
  refine ⟨isMove_of_mem d, fun h => ?_⟩
  -- No coordinate of a move is larger than 2, so that there are 25 pairs to look at.
  have hall : ∀ x ∈ [-2, -1, 0, 1, 2], ∀ y ∈ [-2, -1, 0, 1, 2],
      IsMove ((x : Int), (y : Int)) → (x, y) ∈ next_step_arr := by decide
  have hbound : d.1.natAbs ≤ 2 ∧ d.2.natAbs ≤ 2 := by
    unfold IsMove at h
    omega
  refine hall d.1 ?_ d.2 ?_ h
  · simp only [List.mem_cons, List.not_mem_nil, or_false]
    omega
  · simp only [List.mem_cons, List.not_mem_nil, or_false]
    omega

/-- A move back is a move. -/
theorem isMove_neg {d : Int × Int} (h : IsMove d) : IsMove (-d) := by
  unfold IsMove at h ⊢
  rw [Prod.fst_neg, Prod.snd_neg, Int.natAbs_neg, Int.natAbs_neg]
  have hzero : -d = (0, 0) ↔ d = (0, 0) := neg_eq_zero
  rwa [ne_eq, hzero]

/-- The squares of the board. -/
def board (size : Nat) : Finset (Nat × Nat) := Finset.range size ×ˢ Finset.range size

/-- The board is the set of its squares. -/
theorem mem_board {p : Nat × Nat} : p ∈ board size ↔ OnBoard size p := by
  rw [board, Finset.mem_product, Finset.mem_range, Finset.mem_range, OnBoard]

/-- The moves stay on the board, and each is one of the array. -/
theorem within (size : Nat) : Within (Move size) (board size) next_step_arr.toFinset where
  functional := by
    intro p d q q' h h'
    refine Prod.ext ?_ ?_
    · exact Int.ofNat_inj.mp (h.2.1.trans h'.2.1.symm)
    · exact Int.ofNat_inj.mp (h.2.2.1.trans h'.2.2.1.symm)
  vertex := fun _ _ _ _ h => mem_board.mpr h.2.2.2
  move := fun _ d _ h => List.mem_toFinset.mpr ((mem_next_step_arr d).mpr h.1)

/-- A move is taken back by the opposite one. -/
theorem move_neg {p q : Nat × Nat} {d : Int × Int} (hp : p ∈ board size) (h : Move size p d q) :
    Move size q (-d) p := by
  obtain ⟨hmove, hx, hy, -⟩ := h
  refine ⟨isMove_neg hmove, ?_, ?_, mem_board.mp hp⟩
  · rw [Prod.fst_neg]
    omega
  · rw [Prod.snd_neg]
    omega

/-! ### Adding to a layer -/

/-- `E` is `D` with `f` added to the layer of this step. -/
structure Pushed (step : Nat) (D : Table) (f : Nat × Nat → Int) (E : Table) : Prop where
  size : E.size = D.size
  moves : E.moves = D.moves
  same : ∀ x y k, k ≠ step → E.cell x y k = D.cell x y k
  added : ∀ x y, E.cell x y step = D.cell x y step + f (x, y)

section
variable {step : Nat} {D E F : Table} {f g : Nat × Nat → Int}

/-- Adding nothing changes nothing. -/
theorem Pushed.refl (step : Nat) (D : Table) : Pushed step D (fun _ => 0) D :=
  ⟨rfl, rfl, fun _ _ _ _ => rfl, fun _ _ => (Int.add_zero _).symm⟩

/-- Adding one function and then another is adding their sum. -/
theorem Pushed.trans (h : Pushed step D f E) (h' : Pushed step E g F) :
    Pushed step D (fun q => f q + g q) F where
  size := h'.size.trans h.size
  moves := h'.moves.trans h.moves
  same x y k hk := (h'.same x y k hk).trans (h.same x y k hk)
  added x y := by rw [h'.added, h.added, Int.add_assoc]

/-- A loop adds what its rounds add, if these are given by what the loop does not change. -/
theorem Pushed.loop {n : Nat} {body : Nat → Table → Option Table} {f : Nat → Nat × Nat → Int}
    (hbody : ∀ i E g, i < n → Pushed step D g E → ∃ F, body i E = some F ∧ Pushed step E (f i) F) :
    ∃ E, forUpM 0 n body D = some E ∧ Pushed step D (fun q => ∑ i ∈ Finset.range n, f i q) E := by
  refine forUpM_induct (P := fun i => Pushed step D fun q => ∑ i ∈ Finset.range i, f i q)
    (Nat.zero_le n) (Pushed.refl step D) ?_
  intro i E _ hi hE
  obtain ⟨F, hF, hpushed⟩ := hbody i E _ hi hE
  refine ⟨F, hF, ?_⟩
  simp only [Finset.sum_range_succ]
  exact hE.trans hpushed

end

/-! ### A step -/

section
variable {step : Nat} {D : Table}

/-- Inside of the table a cell is read. -/
theorem read_cell {x y k : Nat} (hx : x < D.size) (hy : y < D.size) (hk : k ≤ D.moves) :
    D.read x y k = some (D.cell x y k) := by
  have hinside : D.Inside x y k := by
    unfold Table.Inside
    omega
  rw [Table.read, if_pos hinside]
  rfl

/-- A store that raises one cell adds to that square only. -/
theorem write_pushed {x y : Nat} (hx : x < D.size) (hy : y < D.size) (hstep : step ≤ D.moves)
    (n : Int) : ∃ E, D.write x y step (D.cell x y step + n) = some E ∧
      Pushed step D (fun q => if q = (x, y) then n else 0) E := by
  have hinside : D.Inside x y step := by
    unfold Table.Inside
    omega
  refine ⟨_, if_pos hinside, rfl, rfl, fun a b c hc => ?_, fun a b => ?_⟩
  · exact if_neg fun h => hc h.2.2
  · simp only [Nat.cast_inj, Prod.mk.injEq, and_true]
    by_cases hab : a = x ∧ b = y
    · rw [if_pos hab, if_pos hab, hab.1, hab.2]
    · rw [if_neg hab, if_neg hab, Int.add_zero]

/-- What comes to `q` from `p` by the move `d`. -/
def arrives (size step : Nat) (D : Table) (p : Nat × Nat) (d : Int × Int) (q : Nat × Nat) : Int :=
  if Move size p d q then D.cell p.1 p.2 (step - 1) else 0

/-- A round adds the walks of one square to where one move leads. -/
theorem moveRound_pushed {i j k : Nat} {d : Int × Int} (hsize : D.size = size)
    (hstep : step ≤ D.moves) (hi : i < size) (hj : j < size) (hd : next_step_arr[k]? = some d) :
    ∃ E, moveRound size step i j k D = some E ∧ Pushed step D (arrives size step D (i, j) d) E := by
  have hmove : IsMove d := isMove_of_mem d (List.mem_of_getElem? hd)
  rw [moveRound, hd, Option.bind_eq_bind, Option.bind_some]
  simp only
  split
  · -- The code goes on with the next move, and no square of the board is reached by this one.
    rename_i hoff
    have hzero : arrives size step D (i, j) d = fun _ => 0 := by
      funext q
      rw [arrives, if_neg]
      rintro ⟨-, hx, hy, hboard⟩
      unfold OnBoard at hboard
      simp only at hx hy hboard
      omega
    rw [hzero]
    exact ⟨D, rfl, .refl step D⟩
  · rename_i hon
    obtain ⟨x, hx⟩ := Int.eq_ofNat_of_zero_le (a := i + d.1) (by omega)
    obtain ⟨y, hy⟩ := Int.eq_ofNat_of_zero_le (a := j + d.2) (by omega)
    have hxs : x < D.size := by omega
    have hys : y < D.size := by omega
    have hone : arrives size step D (i, j) d
        = fun q => if q = (x, y) then D.cell i j (step - 1) else 0 := by
      funext q
      have hiff : Move size (i, j) d q ↔ q = (x, y) := by
        unfold Move OnBoard
        rw [Prod.ext_iff]
        simp only [hx, hy, Nat.cast_inj]
        constructor
        · exact fun h => ⟨h.2.1, h.2.2.1⟩
        · intro h
          exact ⟨hmove, h.1, h.2, by omega, by omega⟩
      exact if_congr hiff rfl rfl
    rw [hx, hy, read_cell hxs hys hstep, read_cell (by omega) (by omega) (by omega), hone]
    exact write_pushed hxs hys hstep _

/-- The sum over the indices of a list. -/
theorem sum_indices (l : List (Int × Int)) (hl : l.Nodup) (f : Int × Int → Int) :
    ∑ k ∈ Finset.range l.length, f (l.getD k 0) = ∑ d ∈ l.toFinset, f d := by
  rw [List.sum_toFinset f hl, ← Fin.sum_univ_fun_getElem, Finset.sum_range]
  refine Finset.sum_congr rfl fun k _ => ?_
  rw [List.getD_eq_getElem l 0 k.isLt]

/-- The step adds what comes by all moves from all squares. -/
theorem stepRound_pushed (hsize : D.size = size) (hstep : step ≤ D.moves) (hpos : 0 < step) :
    ∃ E, stepRound size step D = some E ∧ Pushed step D
      (fun q => ∑ p ∈ board size, ∑ d ∈ next_step_arr.toFinset, arrives size step D p d q) E := by
  -- The layer before this one is not changed, and neither is what comes from it.
  have hkeep : ∀ {E : Table} {g : Nat × Nat → Int}, Pushed step D g E →
      arrives size step E = arrives size step D := by
    intro E g h
    funext p d q
    rw [arrives, h.same _ _ _ (by omega), arrives]
  have hk : ∀ {i j k : Nat} {E : Table} {g : Nat × Nat → Int}, i < size → j < size →
      k < next_step_arr.length → Pushed step D g E → ∃ F, moveRound size step i j k E = some F ∧
        Pushed step E (arrives size step D (i, j) (next_step_arr.getD k 0)) F := by
    intro i j k E g hi hj hk h
    rw [← hkeep h]
    refine moveRound_pushed (h.size.trans hsize) (h.moves.symm ▸ hstep) hi hj ?_
    rw [List.getD_eq_getElem _ _ hk, List.getElem?_eq_getElem hk]
  simp only [board, Finset.sum_product, ← sum_indices _ nodup_next_step_arr]
  refine Pushed.loop fun i E g hi hE => ?_
  refine Pushed.loop fun j F g' hj hF => ?_
  refine Pushed.loop fun k G g'' hk' hG => ?_
  exact hk hi hj hk' ((hE.trans hF).trans hG)

end

/-! ### The run -/

section
variable {numMoves : Nat} {s : Nat × Nat}

/-- The number of the walks of `k` moves from `s` to `q`. -/
noncomputable def walkCount (size : Nat) (s : Nat × Nat) (k : Nat) (q : Nat × Nat) : Int :=
  (walks (Move size) s k q).ncard

/-- Without a move only the start is reached. -/
theorem walkCount_zero (q : Nat × Nat) : walkCount size s 0 q = if q = s then 1 else 0 := by
  rw [walkCount]
  split
  · rename_i heq
    rw [heq, walks_zero_self, Set.ncard_singleton]
    rfl
  · rename_i hne
    rw [walks_zero_of_ne hne, Set.ncard_empty]
    rfl

/-- The walks of one move more come from every square by every move. -/
theorem walkCount_succ (hs : OnBoard size s) (k : Nat) (q : Nat × Nat) :
    walkCount size s (k + 1) q = ∑ p ∈ board size, ∑ d ∈ next_step_arr.toFinset,
      if Move size p d q then walkCount size s k p else 0 := by
  rw [walkCount, (within size).ncard_walks_succ (mem_board.mpr hs)]
  push_cast
  rfl

/-- The layers before `k` have the numbers of the walks, and the others are zero. -/
structure Layers (size numMoves : Nat) (s : Nat × Nat) (k : Nat) (D : Table) : Prop where
  counts : ∀ p n, OnBoard size p → n < k → D.cell p.1 p.2 n = walkCount size s n p
  zero : ∀ x y n, k ≤ n → D.cell x y n = 0
  size : D.size = size
  moves : D.moves = numMoves

/-- The first store makes the layer of no move. -/
theorem layers_start (numMoves : Nat) (hs : OnBoard size s) :
    ∃ D, (Table.zero size numMoves).write s.1 s.2 0 1 = some D ∧ Layers size numMoves s 1 D := by
  obtain ⟨D, hwrite, hD⟩ :=
    write_pushed (D := Table.zero size numMoves) hs.1 hs.2 (Nat.zero_le _) 1
  refine ⟨D, hwrite, fun p n _ hn => ?_, fun x y n hn => ?_, hD.size, hD.moves⟩
  · obtain rfl : n = 0 := by omega
    rw [hD.added, walkCount_zero]
    exact Int.zero_add _
  · rw [hD.same x y n (by omega)]
    rfl

/-- A step makes the next layer. -/
theorem Layers.step {k : Nat} {D : Table} (hs : OnBoard size s) (hpos : 0 < k) (hk : k ≤ numMoves)
    (h : Layers size numMoves s k D) :
    ∃ E, stepRound size k D = some E ∧ Layers size numMoves s (k + 1) E := by
  obtain ⟨E, hround, hE⟩ := stepRound_pushed h.size (h.moves.symm ▸ hk) hpos
  refine ⟨E, hround, fun p n hp hn => ?_, fun x y n hn => ?_, hE.size.trans h.size,
    hE.moves.trans h.moves⟩
  · rcases Nat.lt_or_eq_of_le (Nat.le_of_lt_succ hn) with hlt | rfl
    · rw [hE.same _ _ _ (by omega), h.counts p n hp hlt]
    -- The layer of this step was zero, and has what came to it.
    · obtain ⟨k, rfl⟩ := Nat.exists_eq_succ_of_ne_zero hpos.ne'
      rw [hE.added, h.zero _ _ _ (Nat.le_refl _), Int.zero_add, walkCount_succ hs]
      refine Finset.sum_congr rfl fun q hq => Finset.sum_congr rfl fun d _ => ?_
      exact if_congr Iff.rfl (h.counts q k (mem_board.mp hq) (Nat.lt_succ_self k)) rfl
  · rw [hE.same x y n (by omega), h.zero x y n (by omega)]

/-- The function returns the number of walks to the end square. -/
theorem howMany_eq {e : Nat × Nat} (hs : OnBoard size s) (he : OnBoard size e) :
    howMany size (square s) (square e) numMoves = some (walkCount size s numMoves e) := by
  obtain ⟨D, hwrite, hD⟩ := layers_start numMoves hs
  obtain ⟨E, hloop, hE⟩ :=
    forUpM_induct (P := Layers size numMoves s) (by omega : 1 ≤ numMoves + 1) hD
      fun k D hpos hk h => h.step hs hpos (Nat.le_of_lt_succ hk)
  rw [howMany, square, square, hwrite, Option.bind_eq_bind, Option.bind_some, hloop,
    Option.bind_some,
    read_cell (hE.size.symm ▸ he.1) (hE.size.symm ▸ he.2) hE.moves.symm.le,
    hE.counts e numMoves he (Nat.lt_succ_self _)]

end

/-! ### The theorem -/

/-- `howMany` returns the number of the walks of this many king's or knight's moves from the start
to the end that stay on the board, and returns the same for the way back. -/
theorem howMany_counts (size : Nat) (start «end» : Nat × Nat) (numMoves : Nat)
    (hstart : OnBoard size start) (hend : OnBoard size «end») :
    howMany size (square start) (square «end») numMoves
        = some ((walks (Move size) start numMoves «end»).ncard : Int) ∧
      howMany size (square «end») (square start) numMoves
        = howMany size (square start) (square «end») numMoves := by
  have hcomm : walkCount size «end» numMoves start = walkCount size start numMoves «end» :=
    congrArg Nat.cast ((within size).ncard_walks_comm (mem_board.mpr hend) (mem_board.mpr hstart)
      (fun _ _ _ => move_neg) neg_injective numMoves)
  refine ⟨howMany_eq hstart hend, ?_⟩
  rw [howMany_eq hstart hend, howMany_eq hend hstart, hcomm]

/-- A knight's move on the board of three squares a side. -/
theorem howMany_counts_knight :
    (OnBoard 3 (0, 0) ∧ OnBoard 3 (1, 2)) ∧
      (howMany 3 (0, 0) (1, 2) 1 = some ((walks (Move 3) (0, 0) 1 (1, 2)).ncard : Int) ∧
        howMany 3 (1, 2) (0, 0) 1 = howMany 3 (0, 0) (1, 2) 1) :=
  ⟨by decide, howMany_counts 3 (0, 0) (1, 2) 1 (by decide) (by decide)⟩

end LearnGit.Proofs.DynamicProgramming.ChessMetric
