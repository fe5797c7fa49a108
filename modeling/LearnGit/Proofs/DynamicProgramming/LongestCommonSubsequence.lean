import LearnGit.DynamicProgramming.LongestCommonSubsequence
import LearnGit.Lib.CommonSubsequence
import Mathlib.Algebra.Ring.Nat

/-!
# `LearnGit.Proofs.DynamicProgramming.LongestCommonSubsequence`: a table that is shifted

`lcsLength_right_iff`: `lcs_length` returns the length of a longest common subsequence, and reads
nothing but the characters, only where one of the strings is empty. The row `i` of the table is for
the first `i` characters, but its loop compares `x[i]`, which is the next one, so that the first
characters are never looked at and the ones behind the ends are read.

`lcsLength_arrays` says what it does compute: the longest common subsequence of the two arrays
without their first elements. For two strings with a NUL behind them, the two NULs are counted too.
-/

set_option autoImplicit false

namespace LearnGit.Proofs.DynamicProgramming.LongestCommonSubsequence

open LearnGit.Lib
open LearnGit.DynamicProgramming.LongestCommonSubsequence

/-! ### Statement -/

/-- The tables are allocated. -/
def Allocated (malloc : Nat → Bool) (k l : Nat) : Prop :=
  k + 1 < 2 ^ 31 ∧ l + 1 < 2 ^ 31 ∧ ∀ i ≤ 2 * k + 3, malloc i = true

/-- `lcs_length` reads nothing but the characters of the strings, and returns the length of a
longest common subsequence. -/
def Right (malloc : Nat → Bool) (x y : List UInt8) : Prop :=
  ∀ memory_b memory_c, ∃ m : Nat,
    lcsLength malloc memory_b memory_c x x.length y y.length = some (m : Int) ∧
      IsGreatest (commonLengths x y) m

/-! ### The allocation -/

section
variable {malloc : Nat → Bool} {k l : Nat}

/-- All rows of a range were allocated. -/
theorem all_range {first n : Nat} : (List.range n).all (fun i => malloc (first + i)) = true
    ↔ ∀ i, first ≤ i → i < first + n → malloc i = true := by
  rw [List.all_eq_true]
  constructor
  · intro h i hfirst hi
    have hmalloc := h (i - first) (List.mem_range.mpr (by omega))
    rwa [Nat.add_sub_cancel' hfirst] at hmalloc
  · intro h i hi
    have hlt := List.mem_range.mp hi
    exact h (first + i) (by omega) (by omega)

/-- The allocation succeeds exactly where every row is allocated. -/
theorem allocate_eq_true : allocate malloc k l = some true ↔ Allocated malloc k l := by
  rw [allocate, Allocated, int32]
  by_cases hk : Int32Range (k + 1)
  · rw [if_pos hk, Option.bind_eq_bind, Option.bind_some, int32]
    have hrows : ((k : Int) + 1).toNat = k + 1 := by omega
    have hk' : k + 1 < 2 ^ 31 := by have := hk.2; omega
    by_cases hfirst : malloc 0 = true
    · rw [if_pos hfirst]
      by_cases hl : Int32Range (l + 1)
      · have hl' : l + 1 < 2 ^ 31 := by have := hl.2; omega
        rw [if_pos hl, Option.bind_some, Option.some_inj, Bool.and_eq_true,
          Bool.and_eq_true, all_range, all_range, hrows]
        constructor
        · rintro ⟨⟨hb, hc⟩, hrow⟩
          refine ⟨hk', hl', fun i hi => ?_⟩
          -- The calls in their order: `b`, its rows, `c` and its rows.
          rcases Nat.eq_zero_or_pos i with rfl | hpos
          · exact hfirst
          · rcases Nat.lt_trichotomy i (k + 2) with hlt | rfl | hgt
            · exact hb i hpos (by omega)
            · exact hc
            · exact hrow i (by omega) (by omega)
        · rintro ⟨-, -, hall⟩
          exact ⟨⟨fun i _ hi => hall i (by omega), hall _ (by omega)⟩,
            fun i _ hi => hall i (by omega)⟩
      · have hl' : ¬l + 1 < 2 ^ 31 := fun hlt => hl ⟨by omega, by omega⟩
        rw [if_neg hl]
        exact iff_of_false (Option.some_ne_none true).symm fun h => hl' h.2.1
    · rw [if_neg hfirst]
      have hnot : ¬∀ i ≤ 2 * k + 3, malloc i = true := fun hall => hfirst (hall 0 (Nat.zero_le _))
      simp only [hnot, and_false, Option.some_inj, Bool.false_eq_true]
  · have hk' : ¬k + 1 < 2 ^ 31 := fun hlt => hk ⟨by omega, by omega⟩
    rw [if_neg hk]
    exact iff_of_false (Option.some_ne_none true).symm fun h => hk' h.1

end

/-! ### The table -/

/-- The cell has the length for two prefixes. -/
def Holds (x y : List UInt8) (i j : Nat) (v : Int8) : Prop :=
  ∃ m : Nat, v.toInt = m ∧ IsGreatest (commonLengths (x.take i) (y.take j)) m

/-- The tables behind the rounds before `j` of the inner loop in the round of `i`. `x` and `y` are
the arrays without their first elements. -/
structure Filled (x y : List UInt8) (k l i j : Nat) (t : Tables) : Prop where
  b_rows : t.b.rows = k + 1
  b_columns : t.b.columns = l + 1
  rows : t.c.rows = k + 1
  columns : t.c.columns = l + 1
  cell : ∀ a b, a ≤ k → b ≤ l → (b = 0 ∨ a < i ∨ (a = i ∧ b < j)) → Holds x y a b (t.c.cell a b)

section
variable {x y : List UInt8} {i j k l m n : Nat} {v u : Int8} {t : Tables}

/-- A length of up to 127 is a `char`. -/
theorem toInt_ofInt (h : m ≤ 127) : (Int8.ofInt m).toInt = m :=
  Int8.toInt_ofInt_of_le (by omega) (by omega)

/-- The length for two prefixes is no more than the last one. -/
theorem length_le (hn : IsGreatest (commonLengths (x.take k) (y.take l)) n) (hi : i ≤ k)
    (hj : j ≤ l) (hm : IsGreatest (commonLengths (x.take i) (y.take j)) m) : m ≤ n :=
  hn.2 (commonLengths_mono (List.take_sublist_take_left hi) (List.take_sublist_take_left hj) hm.1)

/-- Where the letters agree the length goes up by one. -/
theorem holds_same {c : UInt8} (hx : x[i]? = some c) (hy : y[j]? = some c) (hi : i < k) (hj : j < l)
    (hn : IsGreatest (commonLengths (x.take k) (y.take l)) n) (hle : n ≤ 127)
    (h : Holds x y i j v) : Holds x y (i + 1) (j + 1) (Int8.ofInt (v.toInt + 1)) := by
  obtain ⟨m, hv, hm⟩ := h
  have hnext : IsGreatest (commonLengths (x.take (i + 1)) (y.take (j + 1))) (m + 1) := by
    rw [List.take_add_one, List.take_add_one, hx, hy]
    exact commonLengths_concat_same hm c
  -- No length is more than that for the whole arrays, and the `char` does not wrap around.
  have hmax := length_le hn hi hj hnext
  refine ⟨m + 1, ?_, hnext⟩
  rw [hv]
  exact toInt_ofInt (m := m + 1) (by omega)

/-- Where the letters differ the greater of the two lengths counts. -/
theorem holds_ne {c c' : UInt8} (hcc : c ≠ c') (hx : x[i]? = some c) (hy : y[j]? = some c')
    (hup : Holds x y i (j + 1) v) (hleft : Holds x y (i + 1) j u) :
    Holds x y (i + 1) (j + 1) (if v.toInt ≥ u.toInt then v else u) := by
  obtain ⟨m, hv, hm⟩ := hup
  obtain ⟨m', hu, hm'⟩ := hleft
  have htakex : x.take (i + 1) = x.take i ++ [c] := by rw [List.take_add_one, hx]; rfl
  have htakey : y.take (j + 1) = y.take j ++ [c'] := by rw [List.take_add_one, hy]; rfl
  have hnext : IsGreatest (commonLengths (x.take (i + 1)) (y.take (j + 1))) (max m m') := by
    rw [htakey] at hm
    rw [htakex] at hm'
    rw [htakex, htakey]
    exact commonLengths_concat_ne hcc hm hm'
  refine ⟨max m m', ?_, hnext⟩
  split <;> omega

/-- A right value and a byte for the way are stored. -/
theorem Filled.store (h : Filled x y k l i j t) (hi : i ≤ k) (hj : j ≤ l) (hv : Holds x y i j v)
    (byte : Int8) : ∃ c b, t.c.write i j v = some c ∧ t.b.write i j byte = some b ∧
      Filled x y k l i (j + 1) ⟨b, c⟩ := by
  have hrows := h.rows
  have hcolumns := h.columns
  have hbrows := h.b_rows
  have hbcolumns := h.b_columns
  obtain ⟨c, hc, hstored⟩ :=
    Grid.write_of_lt (x := v) (by omega : i < t.c.rows) (by omega : j < t.c.columns)
  obtain ⟨b, hb, hstored'⟩ :=
    Grid.write_of_lt (x := byte) (by omega : i < t.b.rows) (by omega : j < t.b.columns)
  refine ⟨c, b, hc, hb, hstored'.rows.trans hbrows, hstored'.columns.trans hbcolumns,
    hstored.rows.trans hrows, hstored.columns.trans hcolumns, fun p q hp hq hdone => ?_⟩
  by_cases hpq : p = i ∧ q = j
  · obtain ⟨rfl, rfl⟩ := hpq
    rwa [hstored.here]
  · rw [hstored.other p q hpq]
    exact h.cell p q hp hq (by omega)

/-- The round of `i + 1` and `j + 1` compares the characters at these indices, which are those at
`i` and `j` without the first elements. -/
theorem lcsRound_filled {a b : UInt8} (hn : IsGreatest (commonLengths (x.take k) (y.take l)) n)
    (hle : n ≤ 127) (hi : i < k) (hj : j < l) (hk : k ≤ x.length) (hl : l ≤ y.length)
    (h : Filled x y k l (i + 1) (j + 1) t) :
    ∃ t', lcsRound (a :: x) (b :: y) (i + 1) (j + 1) t = some t' ∧
      Filled x y k l (i + 1) (j + 2) t' := by
  have hrows := h.rows
  have hcolumns := h.columns
  have hx : x[i]? = some x[i] := List.getElem?_eq_getElem (by omega)
  have hy : y[j]? = some y[j] := List.getElem?_eq_getElem (by omega)
  have hbefore := h.cell i j (by omega) (by omega) (by omega)
  have hup := h.cell i (j + 1) (by omega) (by omega) (by omega)
  have hleft := h.cell (i + 1) j (by omega) (by omega) (by omega)
  rw [lcsRound, List.getElem?_cons_succ, List.getElem?_cons_succ, hx, hy, Nat.add_sub_cancel,
    Nat.add_sub_cancel, Grid.read_of_lt (by omega) (by omega),
    Grid.read_of_lt (by omega) (by omega), Grid.read_of_lt (by omega) (by omega)]
  simp only [Option.bind_eq_bind, Option.bind_some]
  split
  · rename_i hcc
    obtain ⟨c, b, hc, hb, hfilled⟩ :=
      h.store hi hj (holds_same hx (hcc ▸ hy) hi hj hn hle hbefore) 0x5C
    rw [hc, Option.bind_some, hb]
    exact ⟨_, rfl, hfilled⟩
  · rename_i hcc
    have hmax := holds_ne hcc hx hy hup hleft
    split
    · rename_i hge
      rw [if_pos hge] at hmax
      obtain ⟨c, b, hc, hb, hfilled⟩ := h.store hi hj hmax 0x7C
      rw [hc, Option.bind_some, hb]
      exact ⟨_, rfl, hfilled⟩
    · rename_i hlt
      rw [if_neg hlt] at hmax
      obtain ⟨c, b, hc, hb, hfilled⟩ := h.store hi hj hmax 0x2D
      rw [hc, Option.bind_some, hb]
      exact ⟨_, rfl, hfilled⟩

/-- A row that is done starts the next one. -/
theorem Filled.row (h : Filled x y k l i (l + 1) t) : Filled x y k l (i + 1) 1 t := by
  refine ⟨h.b_rows, h.b_columns, h.rows, h.columns, fun a b ha hb hdone => h.cell a b ha hb ?_⟩
  omega

/-! ### The run -/

/-- The loops that set the first column and the first row to zero. -/
theorem zeroBorder (k l : Nat) (memory : Nat → Nat → Int8) :
    ∃ c c', forUpM 1 (k + 1) (fun i (c : Grid Int8) => c.write i 0 0) ⟨k + 1, l + 1, memory⟩
        = some c ∧
      forUpM 0 (l + 1) (fun i (c : Grid Int8) => c.write 0 i 0) c = some c' ∧
      Grid.Bordered (fun _ => 0) (fun _ => 0) k l (k + 1) (l + 1) c' :=
  Grid.forUpM_border (fun _ => 0) (fun _ => 0) k l memory (Nat.le_refl 1)

/-- The table with its border of zeros is filled so far. -/
theorem filled_of_bordered {b c : Grid Int8} (hb : b.rows = k + 1 ∧ b.columns = l + 1)
    (h : Grid.Bordered (fun _ => 0) (fun _ => 0) k l (k + 1) (l + 1) c) :
    Filled x y k l 1 1 ⟨b, c⟩ := by
  refine ⟨hb.1, hb.2, h.rows, h.columns, fun i j hi hj hdone => ?_⟩
  rcases Nat.eq_zero_or_pos i with rfl | hpos
  · refine ⟨0, ?_, commonLengths_nil_left _⟩
    rw [h.top j (by omega)]
    rfl
  · obtain rfl : j = 0 := by omega
    refine ⟨0, ?_, commonLengths_nil_right _⟩
    rw [h.left i hpos (by omega)]
    rfl

/-- The loops of the table, for two arrays with first elements. -/
theorem loops_filled {a b : UInt8} (hn : IsGreatest (commonLengths (x.take k) (y.take l)) n)
    (hle : n ≤ 127) (hk : k ≤ x.length) (hl : l ≤ y.length) (h : Filled x y k l 1 1 t) :
    ∃ t', forUpM 1 (k + 1) (fun i => forUpM 1 (l + 1) (lcsRound (a :: x) (b :: y) i)) t = some t' ∧
      Filled x y k l (k + 1) 1 t' := by
  refine forUpM_induct (P := fun i => Filled x y k l i 1) (by omega) h ?_
  intro i t hi hik h
  obtain ⟨i, rfl⟩ := Nat.exists_eq_add_of_le' hi
  have hloop : ∃ t', forUpM 1 (l + 1) (lcsRound (a :: x) (b :: y) (i + 1)) t = some t' ∧
      Filled x y k l (i + 1) (l + 1) t' := by
    refine forUpM_induct (by omega) h ?_
    intro j t hj hjl h
    obtain ⟨j, rfl⟩ := Nat.exists_eq_add_of_le' hj
    exact lcsRound_filled hn hle (by omega) (by omega) hk hl h
  obtain ⟨t', hloop, h'⟩ := hloop
  exact ⟨t', hloop, h'.row⟩

/-- On two arrays with an element more than the lengths, the program returns the length of a longest
common subsequence of what is behind the first elements. -/
theorem lcsLength_arrays {malloc : Nat → Bool} (hmalloc : Allocated malloc k l)
    (memory_b memory_c : Nat → Nat → Int8) (a b : UInt8) (hk : k = x.length) (hl : l = y.length)
    (hn : IsGreatest (commonLengths x y) n) (hle : n ≤ 127) :
    lcsLength malloc memory_b memory_c (a :: x) k (b :: y) l = some (n : Int) := by
  obtain ⟨c, c', hleft, htop, hborder⟩ := zeroBorder k l memory_c
  have hstart : Filled x y k l 1 1 ⟨⟨k + 1, l + 1, memory_b⟩, c'⟩ :=
    filled_of_bordered ⟨rfl, rfl⟩ hborder
  have hn' : IsGreatest (commonLengths (x.take k) (y.take l)) n := by
    rwa [hk, hl, List.take_length, List.take_length]
  obtain ⟨t, hloop, ht⟩ := loops_filled (a := a) (b := b) hn' hle hk.le hl.le hstart
  obtain ⟨m, hm, hgreatest⟩ := ht.cell k l (Nat.le_refl k) (Nat.le_refl l) (by omega)
  have hlast : t.c.read k l = some (t.c.cell k l) :=
    Grid.read_of_lt (by rw [ht.rows]; omega) (by rw [ht.columns]; omega)
  rw [lcsLength, allocate_eq_true.mpr hmalloc]
  simp only [Option.bind_eq_bind, Option.bind_some, if_true, hleft, htop, hloop, hlast, hm]
  rw [hgreatest.unique hn']

/-- With an empty string, no round is made. -/
theorem loops_empty (hempty : x = [] ∨ y = []) (t : Tables) :
    forUpM 1 (x.length + 1) (fun i => forUpM 1 (y.length + 1) (lcsRound x y i)) t = some t := by
  rcases hempty with rfl | rfl
  · exact forUpM_self
  · have hloop : ∃ t', forUpM 1 (x.length + 1) (fun i => forUpM 1 1 (lcsRound x [] i)) t = some t' ∧
        t' = t :=
      forUpM_induct (P := fun _ t' => t' = t) (by omega) rfl
        fun i t' _ _ heq => ⟨t', forUpM_self, heq⟩
    obtain ⟨t', hloop, rfl⟩ := hloop
    exact hloop

/-- Without a letter in one of the texts the length is 0. -/
theorem lcsLength_empty {malloc : Nat → Bool} (hmalloc : Allocated malloc x.length y.length)
    (memory_b memory_c : Nat → Nat → Int8) (hempty : x = [] ∨ y = []) :
    lcsLength malloc memory_b memory_c x x.length y y.length = some 0 := by
  obtain ⟨c, c', hleft, htop, hborder⟩ := zeroBorder x.length y.length memory_c
  have hlast : c'.read x.length y.length = some (c'.cell x.length y.length) :=
    Grid.read_of_lt (by rw [hborder.rows]; omega) (by rw [hborder.columns]; omega)
  have hzero : c'.cell x.length y.length = 0 := by
    rcases Nat.eq_zero_or_pos x.length with hx | hx
    · rw [hx]
      exact hborder.top _ (by omega)
    · have hy : y = [] := hempty.resolve_left (List.length_pos_iff.mp hx)
      rw [hy]
      exact hborder.left _ hx (by omega)
  rw [lcsLength, allocate_eq_true.mpr hmalloc]
  simp only [Option.bind_eq_bind, Option.bind_some, if_true, hleft, htop, loops_empty hempty, hlast,
    hzero]
  rfl

/-- With a character in both strings, the round for the length of the second one reads behind it. -/
theorem lcsLength_reads {malloc : Nat → Bool} (hmalloc : Allocated malloc x.length y.length)
    (memory_b memory_c : Nat → Nat → Int8) (hx : x ≠ []) (hy : y ≠ []) :
    lcsLength malloc memory_b memory_c x x.length y y.length = none := by
  have hxlen := List.length_pos_iff.mpr hx
  have hylen := List.length_pos_iff.mpr hy
  obtain ⟨c, c', hleft, htop, -⟩ := zeroBorder x.length y.length memory_c
  have hround : ∀ t, lcsRound x y 1 y.length t = none := by
    intro t
    rw [lcsRound, List.getElem?_eq_none (Nat.le_refl y.length)]
    cases x[1]? <;> rfl
  have hloop : ∀ t, forUpM 1 (x.length + 1)
      (fun i => forUpM 1 (y.length + 1) (lcsRound x y i)) t = none := by
    intro t
    refine forUpM_none_of_round (k := 1) (Nat.le_refl 1) (by omega) fun t => ?_
    exact forUpM_none_of_round (k := y.length) hylen (Nat.lt_succ_self _) hround
  rw [lcsLength, allocate_eq_true.mpr hmalloc]
  simp only [Option.bind_eq_bind, Option.bind_some, if_true, hleft, htop, hloop]
  rfl

end

/-! ### The theorem -/

/-- Where a call of `malloc` fails or a length is too large, no length is returned. -/
theorem allocated_of_eq_some {malloc : Nat → Bool} {memory_b memory_c : Nat → Nat → Int8}
    {x y : List UInt8} {k l m : Nat}
    (h : lcsLength malloc memory_b memory_c x k y l = some (m : Int)) : Allocated malloc k l := by
  rw [lcsLength] at h
  rw [← allocate_eq_true]
  cases hallocate : allocate malloc k l with
  | none =>
    rw [hallocate] at h
    exact absurd h (Option.some_ne_none _).symm
  | some allocated =>
    rw [hallocate] at h
    cases allocated with
    | true => rfl
    | false =>
      have hneg : (-1 : Int) = m := Option.some_inj.mp h
      omega

/-- The program is right exactly where the memory is there and one of the texts is empty. -/
theorem right_iff (malloc : Nat → Bool) (x y : List UInt8) :
    Right malloc x y ↔ Allocated malloc x.length y.length ∧ (x = [] ∨ y = []) := by
  constructor
  · intro h
    obtain ⟨m, hm, -⟩ := h (fun _ _ => 0) fun _ _ => 0
    have hmalloc := allocated_of_eq_some hm
    refine ⟨hmalloc, ?_⟩
    -- With a character in both strings, a run reads behind the second one.
    by_contra hne
    rw [not_or] at hne
    rw [lcsLength_reads hmalloc _ _ hne.1 hne.2] at hm
    exact absurd hm (Option.some_ne_none _).symm
  · rintro ⟨hmalloc, hempty⟩ memory_b memory_c
    refine ⟨0, lcsLength_empty hmalloc memory_b memory_c hempty, ?_⟩
    rcases hempty with rfl | rfl
    · exact commonLengths_nil_left y
    · exact commonLengths_nil_right x

/-- `lcs_length` is right exactly if its tables are allocated and one of the strings is empty. With
a NUL behind two strings that are not empty, it returns one more than the length of a longest common
subsequence of what follows their first characters, as far as this is a `char`. -/
theorem lcsLength_right_iff (malloc : Nat → Bool) (x y : List UInt8) :
    (Right malloc x y ↔ Allocated malloc x.length y.length ∧ (x = [] ∨ y = [])) ∧
    (Allocated malloc x.length y.length → x ≠ [] → y ≠ [] →
      ∀ m, IsGreatest (commonLengths x.tail y.tail) m → m + 1 ≤ 127 → ∀ memory_b memory_c,
        lcsLength malloc memory_b memory_c (x ++ [0]) x.length (y ++ [0]) y.length
          = some ((m + 1 : Nat) : Int)) := by
  refine ⟨right_iff malloc x y, fun hmalloc hx hy m hm hle memory_b memory_c => ?_⟩
  obtain ⟨a, x, rfl⟩ := List.exists_cons_of_ne_nil hx
  obtain ⟨b, y, rfl⟩ := List.exists_cons_of_ne_nil hy
  exact lcsLength_arrays hmalloc memory_b memory_c a b (by simp) (by simp)
    (commonLengths_concat_same hm 0) hle

/-- The strings `A` and `B` have no common character. Behind their characters, the program reads,
and with the two NULs it returns 1. -/
theorem lcsLength_shifted :
    IsGreatest (commonLengths [(0x41 : UInt8)] [0x42]) 0 ∧
      ¬Right (fun _ => true) [0x41] [0x42] ∧
      lcsLength (fun _ => true) (fun _ _ => 0) (fun _ _ => 0) [0x41, 0] 1 [0x42, 0] 1 = some 1 := by
  refine ⟨?_, ?_, by decide⟩
  · exact commonLengths_cons_ne (by decide) (commonLengths_nil_left _) (commonLengths_nil_right _)
  · intro h
    obtain ⟨m, hm, -⟩ := h (fun _ _ => 0) fun _ _ => 0
    have hnone : lcsLength (fun _ => true) (fun _ _ => 0) (fun _ _ => 0) [0x41] 1 [0x42] 1
        = none := by
      decide
    exact absurd (hnone.symm.trans hm) (Option.some_ne_none _).symm

end LearnGit.Proofs.DynamicProgramming.LongestCommonSubsequence
