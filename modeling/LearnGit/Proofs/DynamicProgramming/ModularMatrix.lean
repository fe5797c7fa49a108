import LearnGit.DynamicProgramming.PowerPartition
import Mathlib.Algebra.BigOperators.Fin
import Mathlib.Data.Matrix.Mul
import Mathlib.Data.ZMod.Basic

/-!
# `LearnGit.Proofs.DynamicProgramming.ModularMatrix`: the class `Matrix`

The elements of a square matrix are residues modulo `mod`. Where the blocks of two matrices hold
residues (`Represents`), the operators are defined, and their results hold the product
(`mul_represents`, `mulAssign_represents`) and the power (`pow_represents`). The sum in a product
stays below `mod2` between the rounds, and below its double in a round (`sumRound_eq`).
-/

set_option autoImplicit false

namespace LearnGit.Proofs.DynamicProgramming.PowerPartition

open LearnGit.Lib
open LearnGit.DynamicProgramming
open LearnGit.DynamicProgramming.PowerPartition hiding Matrix

/-- The residues modulo `mod`. -/
abbrev Residue := ZMod 1000000007

instance one_lt_mod : Fact (1 < 1000000007) := ⟨by decide⟩

/-! ### Blocks -/

/-- The block holds a table, row by row. -/
structure Holds (b : Block) (r c : Nat) (f : Nat → Nat → Int) : Prop where
  size : b.size = r * c
  cell : ∀ i j, i < r → j < c → b.cell (i * c + j) = some (f i j)

section
variable {r c i j a d : Nat} {b : Block} {f : Nat → Nat → Int} {x : Int}

/-- The place of an element is inside of the block. -/
theorem place_lt (hi : i < r) (hj : j < c) : i * c + j < r * c :=
  calc i * c + j < i * c + c := by omega
    _ = (i + 1) * c := (Nat.succ_mul i c).symm
    _ ≤ r * c := Nat.mul_le_mul_right c hi

/-- Every element has its own place. -/
theorem place_inj (hj : j < c) (hd : d < c) (h : i * c + j = a * c + d) : i = a ∧ j = d := by
  have hpos : 0 < c := by omega
  have hrow : i = a := by
    calc i = (i * c + j) / c := by
          rw [Nat.add_comm, Nat.add_mul_div_right _ _ hpos, Nat.div_eq_of_lt hj, Nat.zero_add]
      _ = (a * c + d) / c := by rw [h]
      _ = a := by
          rw [Nat.add_comm, Nat.add_mul_div_right _ _ hpos, Nat.div_eq_of_lt hd, Nat.zero_add]
  subst hrow
  exact ⟨rfl, Nat.add_left_cancel h⟩

/-- Inside of the block a cell is read. -/
theorem load_of_cell {k : Nat} (hk : k < b.size) (h : b.cell k = some x) : load b k = some x := by
  rw [load, Cells.read_of_lt hk, Option.bind_some, h]
  rfl

/-- Inside of the block a cell is stored. -/
theorem store_of_lt {k : Nat} (hk : k < b.size) :
    store b k x = some { b with cell := Function.update b.cell k (some x) } :=
  Cells.write_of_lt hk

/-- The element of a row and a column is read. -/
theorem Holds.load (h : Holds b r c f) (hi : i < r) (hj : j < c) :
    load b (i * c + j) = some (f i j) :=
  load_of_cell (by rw [h.size]; exact place_lt hi hj) (h.cell i j hi hj)

/-- The table with another number at a place. -/
theorem Holds.store (h : Holds b r c f) (hi : i < r) (hj : j < c) (x : Int) :
    ∃ b', store b (i * c + j) x = some b' ∧
      Holds b' r c (fun a d => if a = i ∧ d = j then x else f a d) := by
  refine ⟨_, store_of_lt (by rw [h.size]; exact place_lt hi hj), h.size, fun a d ha hd => ?_⟩
  show Function.update b.cell _ _ (a * c + d) = _
  by_cases hplace : a = i ∧ d = j
  · obtain ⟨rfl, rfl⟩ := hplace
    rw [Function.update_self, if_pos ⟨rfl, rfl⟩]
  · rw [Function.update_of_ne fun heq => hplace (place_inj hd hj heq), if_neg hplace]
    exact h.cell a d ha hd

/-- What a block holds depends on the table's elements alone. -/
theorem Holds.congr {g : Nat → Nat → Int} (h : Holds b r c f)
    (hfg : ∀ i j, i < r → j < c → f i j = g i j) : Holds b r c g :=
  ⟨h.size, fun i j hi hj => by rw [← hfg i j hi hj]; exact h.cell i j hi hj⟩

/-- Two loops that fill a block. -/
theorem fill_holds {body : Nat → Nat → Block → Option Block} (hsize : b.size = r * c)
    (hbody : ∀ i j b, i < r → j < c → body i j b = PowerPartition.store b (i * c + j) (f i j)) :
    ∃ b', forUpM 0 r (fun i => forUpM 0 c (body i)) b = some b' ∧ Holds b' r c f := by
  have hloops : ∃ b', forUpM 0 r (fun i => forUpM 0 c (body i)) b = some b' ∧ b'.size = r * c ∧
      ∀ a d, a < r → d < c → (a < r ∨ a = r ∧ d < 0) → b'.cell (a * c + d) = some (f a d) := by
    refine forUpM_nested (P := fun i j (b : Block) => b.size = r * c ∧ ∀ a d, a < r → d < c →
      (a < i ∨ a = i ∧ d < j) → b.cell (a * c + d) = some (f a d)) ⟨hsize, by omega⟩ ?_ ?_
    · rintro i j b hi hj ⟨hsize, hcell⟩
      rw [hbody i j b hi hj]
      refine ⟨_, store_of_lt (by rw [hsize]; exact place_lt hi hj), hsize,
        fun a d ha hd hbefore => ?_⟩
      show Function.update b.cell _ _ (a * c + d) = _
      by_cases hplace : a = i ∧ d = j
      · obtain ⟨rfl, rfl⟩ := hplace
        rw [Function.update_self]
      · rw [Function.update_of_ne fun heq => hplace (place_inj hd hj heq)]
        exact hcell a d ha hd (by omega)
    · rintro i b ⟨hsize, hcell⟩
      exact ⟨hsize, fun a d ha hd hbefore => hcell a d ha hd (by omega)⟩
  obtain ⟨b', hrun, hsize', hcell⟩ := hloops
  exact ⟨b', hrun, hsize', fun i j hi hj => hcell i j hi hj (.inl hi)⟩

/-- The transposed block holds the transposed table. -/
theorem transpose_holds (h : Holds b r c f) :
    ∃ tmp, transpose r c b = some tmp ∧ Holds tmp c r fun i j => f j i := by
  refine fill_holds (Nat.mul_comm r c) fun i j tmp hi hj => ?_
  rw [h.load hj hi]
  rfl

end

/-! ### The sum in a product -/

/-- The table has residues. -/
def Reduced (r c : Nat) (f : Nat → Nat → Int) : Prop :=
  ∀ i j, i < r → j < c → 0 ≤ f i j ∧ f i j < mod

/-- The sum that a product has at a place. -/
def inner (m : Nat) (f g : Nat → Nat → Int) (i j : Nat) : Residue :=
  ∑ k ∈ Finset.range m, (f i k : Residue) * (g j k : Residue)

/-- The bound of the running sum is a multiple of the modulus. -/
theorem mod2_cast : ((mod2 : Int) : Residue) = 0 := by decide

/-- A product of two residues is below the bound of the running sum. -/
theorem mul_range {x y : Int} (hx : 0 ≤ x ∧ x < mod) (hy : 0 ≤ y ∧ y < mod) :
    0 ≤ x * y ∧ x * y < mod2 :=
  ⟨mul_nonneg hx.1 hy.1, mul_lt_mul'' hx.2 hy.2 hx.1 hy.1⟩

/-- No sum is a multiple of `mod2` too large. -/
theorem sumRound_eq {data tmp : Block} {pa pb k : Nat} {x y sum : Int}
    (hx : load data (pa + k) = some x) (hy : load tmp (pb + k) = some y)
    (hxmod : 0 ≤ x ∧ x < mod) (hymod : 0 ≤ y ∧ y < mod) (hsum : 0 ≤ sum ∧ sum < mod2) :
    ∃ sum', sumRound data tmp pa pb k sum = some sum' ∧ (0 ≤ sum' ∧ sum' < mod2) ∧
      (sum' : Residue) = sum + x * y := by
  have hproduct := mul_range hxmod hymod
  have hmod2 : mod2 = 1000000014000000049 := by decide
  rw [hmod2] at hproduct hsum
  refine ⟨if sum + x * y ≥ mod2 then sum + x * y - mod2 else sum + x * y, ?_, ?_, ?_⟩
  · rw [sumRound, hx, hy, Option.bind_eq_bind, Option.bind_some, Option.bind_some,
      int64_of_range ⟨by omega, by omega⟩, Option.bind_some,
      int64_of_range ⟨by omega, by omega⟩]
    rfl
  · -- Both operands are below `mod2`, and so one subtraction is enough.
    rw [hmod2]
    split <;> omega
  · split
    · rw [Int.cast_sub, mod2_cast, sub_zero, Int.cast_add, Int.cast_mul]
    · rw [Int.cast_add, Int.cast_mul]

/-- The sum behind the first `k` rounds. -/
theorem sum_inner {data tmp : Block} {r c m i j k : Nat} {f g : Nat → Nat → Int}
    (hdata : Holds data r m f) (htmp : Holds tmp c m g) (hf : Reduced r m f) (hg : Reduced c m g)
    (hi : i < r) (hj : j < c) (hk : k ≤ m) :
    ∃ sum, forUpM 0 k (sumRound data tmp (i * m) (j * m)) 0 = some sum ∧
      (0 ≤ sum ∧ sum < mod2) ∧ (sum : Residue) = inner k f g i j := by
  refine forUpM_induct (P := fun k sum => (0 ≤ sum ∧ sum < mod2) ∧
    (sum : Residue) = inner k f g i j) (Nat.zero_le k) ⟨by decide, ?_⟩ ?_
  · rw [inner, Finset.sum_range_zero, Int.cast_zero]
  · rintro l sum - hl ⟨hsum, heq⟩
    have hlm : l < m := by omega
    obtain ⟨sum', hrun, hsum', heq'⟩ := sumRound_eq (hdata.load hi hlm) (htmp.load hj hlm)
      (hf i l hi hlm) (hg j l hj hlm) hsum
    refine ⟨sum', hrun, hsum', ?_⟩
    rw [heq', heq, inner, inner, Finset.sum_range_succ]

/-- C's remainder of a number that is not negative is its residue. -/
theorem tmod_mod {x : Int} (hx : 0 ≤ x) : x.tmod mod = ((x : Residue).val : Int) := by
  rw [Int.tmod_eq_emod_of_nonneg hx, ZMod.val_intCast]
  rfl

/-- The loops store the residues of the sums of products. -/
theorem products_holds {data tmp ans : Block} {n m c : Nat} {f g : Nat → Nat → Int}
    (hdata : Holds data n m f) (htmp : Holds tmp c m g) (hf : Reduced n m f) (hg : Reduced c m g)
    (hsize : ans.size = n * c) : ∃ ans', products n m c data tmp ans = some ans' ∧
      Holds ans' n c fun i j => ((inner m f g i j).val : Int) := by
  refine fill_holds hsize fun i j ans hi hj => ?_
  obtain ⟨sum, hrun, hsum, heq⟩ := sum_inner hdata htmp hf hg hi hj (Nat.le_refl m)
  rw [hrun, Option.bind_eq_bind, Option.bind_some, tmod_mod hsum.1, heq]

/-! ### The operators -/

section
variable {n : Nat}

/-- The numbers of a matrix of residues. -/
def numbers (N : Matrix (Fin n) (Fin n) Residue) (i j : Nat) : Int :=
  if h : i < n ∧ j < n then ((N ⟨i, h.1⟩ ⟨j, h.2⟩).val : Int) else 0

/-- The matrix of the program has these residues. -/
structure Represents (a : PowerPartition.Matrix) (N : Matrix (Fin n) (Fin n) Residue) : Prop where
  rows : a.n = n
  columns : a.m = n
  holds : Holds a.data n n (numbers N)

variable {a b : PowerPartition.Matrix} {N P : Matrix (Fin n) (Fin n) Residue}

/-- Inside of the matrix its numbers are the residues'. -/
theorem numbers_of_lt {i j : Nat} (hi : i < n) (hj : j < n) :
    numbers N i j = ((N ⟨i, hi⟩ ⟨j, hj⟩).val : Int) := dif_pos ⟨hi, hj⟩

/-- The numbers of a matrix are residues. -/
theorem numbers_reduced (N : Matrix (Fin n) (Fin n) Residue) : Reduced n n (numbers N) := by
  intro i j hi hj
  rw [numbers_of_lt hi hj]
  exact ⟨Int.natCast_nonneg _, Int.ofNat_lt.mpr (ZMod.val_lt _)⟩

/-- The sum of the products is the element of the matrix product. -/
theorem inner_numbers {i j : Nat} (hi : i < n) (hj : j < n) :
    ((inner n (numbers N) (fun i j => numbers P j i) i j).val : Int) = numbers (N * P) i j := by
  rw [numbers_of_lt hi hj, Matrix.mul_apply, inner, Finset.sum_range]
  congr 2
  refine Finset.sum_congr rfl fun k _ => ?_
  rw [numbers_of_lt hi k.isLt, numbers_of_lt k.isLt hj]
  rw [Int.cast_natCast, ZMod.natCast_zmod_val, Int.cast_natCast, ZMod.natCast_zmod_val]

/-- The loops of both multiplications. -/
theorem product_holds {data data' ans : Block} (hN : Holds data n n (numbers N))
    (hP : Holds data' n n (numbers P)) (hsize : ans.size = n * n) :
    ∃ tmp ans', transpose n n data' = some tmp ∧ products n n n data tmp ans = some ans' ∧
      Holds ans' n n (numbers (N * P)) := by
  obtain ⟨tmp, htmp, hcolumns⟩ := transpose_holds hP
  obtain ⟨ans', hans, hproduct⟩ := products_holds hN hcolumns (numbers_reduced N)
    (fun i j hi hj => numbers_reduced P j i hj hi) hsize
  exact ⟨tmp, ans', htmp, hans, hproduct.congr fun i j hi hj => inner_numbers hi hj⟩

/-- `operator*`. -/
theorem mul_represents (ha : Represents a N) (hb : Represents b P) :
    ∃ c, a.mul b = some c ∧ Represents c (N * P) := by
  obtain ⟨tmp, ans, htmp, hans, hholds⟩ :=
    product_holds ha.holds hb.holds (show (calloc (n * n)).size = n * n from rfl)
  refine ⟨⟨n, n, ans⟩, ?_, rfl, rfl, hholds⟩
  rw [PowerPartition.Matrix.mul, hb.rows, hb.columns, ha.rows, ha.columns, htmp,
    Option.bind_eq_bind, Option.bind_some, hans]
  rfl

/-- The copy of a block into another one. -/
theorem copy_holds {ans data : Block} {f : Nat → Nat → Int} (h : Holds ans n n f)
    (hsize : data.size = n * n) : ∃ data', forUpM 0 (n * n) (fun i data => do
      let x ← load ans i
      store data i x) data = some data' ∧ Holds data' n n f := by
  have hloop : ∃ data', forUpM 0 (n * n) (fun i data => do
      let x ← load ans i
      store data i x) data = some data' ∧ data'.size = n * n ∧
      ∀ k, k < n * n → data'.cell k = ans.cell k := by
    refine forUpM_induct (P := fun l (data : Block) => data.size = n * n ∧
      ∀ k, k < l → data.cell k = ans.cell k) (Nat.zero_le _) ⟨hsize, by omega⟩ ?_
    rintro l data - hl ⟨hsize, hcell⟩
    -- Every place is that of an element.
    have hn : 0 < n := Nat.pos_of_ne_zero fun hzero => by simp [hzero] at hl
    have hvalue : ans.cell l = some (f (l / n) (l % n)) := by
      rw [← h.cell (l / n) (l % n) (Nat.div_lt_of_lt_mul hl) (Nat.mod_lt l hn), Nat.div_add_mod']
    rw [load_of_cell (by rw [h.size]; exact hl) hvalue, Option.bind_eq_bind, Option.bind_some]
    refine ⟨_, store_of_lt (by rw [hsize]; exact hl), hsize, fun k hk => ?_⟩
    show Function.update data.cell l _ k = _
    by_cases hkl : k = l
    · rw [hkl, Function.update_self, hvalue]
    · rw [Function.update_of_ne hkl]
      exact hcell k (by omega)
  obtain ⟨data', hrun, hsize', hcell⟩ := hloop
  refine ⟨data', hrun, hsize', fun i j hi hj => ?_⟩
  rw [hcell _ (place_lt hi hj), h.cell i j hi hj]

/-- `operator*=`. -/
theorem mulAssign_represents (ha : Represents a N) (hb : Represents b P) :
    ∃ c, a.mulAssign b = some c ∧ Represents c (N * P) := by
  obtain ⟨tmp, ans, htmp, hans, hholds⟩ :=
    product_holds ha.holds hb.holds (show (malloc (n * n)).size = n * n from rfl)
  obtain ⟨data, hcopy, hcopied⟩ := copy_holds hholds ha.holds.size
  refine ⟨{ a with data }, ?_, ha.rows, ha.columns, hcopied⟩
  rw [PowerPartition.Matrix.mulAssign, ha.rows, htmp, Option.bind_eq_bind, Option.bind_some, hans,
    Option.bind_some, hcopy]
  rfl

/-- `identify` makes the unit matrix. -/
theorem identify_represents (n : Nat) : ∃ a, (PowerPartition.Matrix.init n n).identify = some a ∧
    Represents a (1 : Matrix (Fin n) (Fin n) Residue) := by
  have hloop : ∃ data, forUpM 0 n (fun i data => store data (i * (n + 1)) 1) (calloc (n * n))
      = some data ∧ Holds data n n fun a d => if a = d ∧ a < n then 1 else 0 := by
    refine forUpM_induct (P := fun i (data : Block) =>
      Holds data n n fun a d => if a = d ∧ a < i then 1 else 0) (Nat.zero_le n)
      ⟨rfl, fun i j _ _ => by rw [if_neg (by omega)]; rfl⟩ ?_
    intro i data _ hi h
    obtain ⟨data', hstore, hholds⟩ := h.store hi hi 1
    refine ⟨data', hstore, hholds.congr fun a d _ _ => ?_⟩
    split
    · rw [if_pos (by omega)]
    · refine if_congr ?_ rfl rfl
      omega
  obtain ⟨data, hrun, hholds⟩ := hloop
  refine ⟨⟨n, n, data⟩, ?_, rfl, rfl, hholds.congr fun i j hi hj => ?_⟩
  · rw [PowerPartition.Matrix.identify]
    exact congrArg (Option.map _) hrun
  · rw [numbers_of_lt hi hj, Matrix.one_apply]
    by_cases hij : i = j
    · rw [if_pos ⟨hij, hi⟩, if_pos (by simpa using hij), ZMod.val_one, Nat.cast_one]
    · rw [if_neg fun h => hij h.1, if_neg (by simpa using hij), ZMod.val_zero, Nat.cast_zero]

/-- `operator^`. -/
theorem pow_represents (ha : Represents a N) (x : Nat) :
    ∃ c, a.pow x = some c ∧ Represents c (N ^ x) := by
  obtain ⟨ans, hans, hone⟩ := identify_represents n
  obtain ⟨c, hloop, hc⟩ := powerLoop_spec PowerPartition.Matrix.mulAssign (R := Represents)
    (S := Represents) (fun hs ht => mulAssign_represents hs ht)
    (fun ht => mulAssign_represents ht ht) x hone ha
  rw [one_mul] at hc
  refine ⟨c, ?_, hc⟩
  rw [PowerPartition.Matrix.pow, ha.rows, ha.columns, hans]
  exact hloop

end

end LearnGit.Proofs.DynamicProgramming.PowerPartition
