import LearnGit.DynamicProgramming.EditDistance
import LearnGit.Lib.EditDistance

/-!
# `LearnGit.Proofs.DynamicProgramming.EditDistance`: the table holds the distances

`editDistance_right_iff`: `EditDistance` returns the least number of edits for all strings of two
lengths if and only if none of the lengths is more than 127, the largest number of a `char`. For
such strings it is symmetric, zero only for equal strings, and satisfies the triangle inequality.

The cell at `i` and `j` has the distance of the first `i` characters from the first `j` ones
(`Filled`), as far as the loops have come. No distance is more than the longer length, so that no
cell overflows. A string of one letter and a string of another one are as far apart as the longer
one is long.
-/

set_option autoImplicit false

namespace LearnGit.Proofs.DynamicProgramming.EditDistance

open LearnGit.Lib
open LearnGit.DynamicProgramming.EditDistance

/-! ### Statement -/

/-- `EditDistance` returns the least number of edits for all strings of these lengths. -/
def Right (k l : Nat) : Prop :=
  ∀ (memory : Nat → Nat → Int8) (s n : List UInt8), s.length = k → n.length = l →
    ∃ (d : Int8) (m : Nat), distanceOf memory s n = some d ∧ d.toInt = m ∧ Distance s n m

/-! ### The table -/

/-- The cell has the distance of two prefixes. -/
def Holds (s n : List UInt8) (a b : Nat) (x : Int8) : Prop :=
  ∃ m : Nat, x.toInt = m ∧ Distance (s.take a) (n.take b) m

/-- The table of two strings of at most 127 characters, behind the rounds before `i` of the loop
over `i` in the round of `j`. -/
structure Filled (s n : List UInt8) (j i : Nat) (d : Grid Int8) : Prop where
  rows : d.rows = s.length + 1
  columns : d.columns = n.length + 1
  cell : ∀ a b, a ≤ s.length → b ≤ n.length → (a = 0 ∨ b ≤ j ∨ (b = j + 1 ∧ a ≤ i)) →
    Holds s n a b (d.cell a b)

section
variable {s n : List UInt8} {i j m : Nat} {d : Grid Int8}

/-- `minimum3` is the least of three numbers. -/
theorem minimum3_eq (x y z : Int) : minimum3 x y z = min (min x y) z := by
  rw [minimum3]
  split <;> split <;> omega

/-- A distance of up to 127 is a `char`. -/
theorem toInt_ofInt {x : Nat} (h : x ≤ 127) : (Int8.ofInt x).toInt = x :=
  Int8.toInt_ofInt_of_le (by omega) (by omega)

/-- Texts of up to 127 letters have a distance of up to 127. -/
theorem distance_le (hs : s.length ≤ 127) (hn : n.length ≤ 127) {a b : Nat}
    (h : Distance (s.take a) (n.take b) m) : m ≤ 127 := by
  have hle := h.le_max
  rw [List.length_take, List.length_take] at hle
  omega

/-- What the code stores has the distance of the longer prefixes. -/
theorem holds_same {c : UInt8} {x : Int8} (hs : s[i]? = some c) (hn : n[j]? = some c)
    (h : Holds s n i j x) : Holds s n (i + 1) (j + 1) x := by
  obtain ⟨m, hx, hm⟩ := h
  refine ⟨m, hx, ?_⟩
  rw [List.take_add_one, List.take_add_one, hs, hn]
  exact hm.concat_same c

/-- Where the letters differ the least of the three distances goes up by one. -/
theorem holds_ne {c c' : UInt8} {x y z : Int8} (hcc : c ≠ c') (hs : s[i]? = some c)
    (hn : n[j]? = some c') (hlens : s.length ≤ 127) (hlenn : n.length ≤ 127)
    (hx : Holds s n i (j + 1) x) (hy : Holds s n (i + 1) j y) (hz : Holds s n i j z) :
    Holds s n (i + 1) (j + 1) (Int8.ofInt (minimum3 (x.toInt + 1) (y.toInt + 1) (z.toInt + 1))) := by
  obtain ⟨mx, hx, hmx⟩ := hx
  obtain ⟨my, hy, hmy⟩ := hy
  obtain ⟨mz, hz, hmz⟩ := hz
  have htakes : s.take (i + 1) = s.take i ++ [c] := by rw [List.take_add_one, hs]; rfl
  have htaken : n.take (j + 1) = n.take j ++ [c'] := by rw [List.take_add_one, hn]; rfl
  have hdistance : Distance (s.take (i + 1)) (n.take (j + 1)) (min (min mx my) mz + 1) := by
    rw [htakes] at hmy
    rw [htaken] at hmx
    rw [htakes, htaken]
    exact hmx.concat_ne hcc hmy hmz
  -- The distance of two prefixes is an entry that a `char` can hold.
  have hle := distance_le hlens hlenn hdistance
  refine ⟨min (min mx my) mz + 1, ?_, hdistance⟩
  have hmin : minimum3 (x.toInt + 1) (y.toInt + 1) (z.toInt + 1)
      = ((min (min mx my) mz + 1 : Nat) : Int) := by
    rw [minimum3_eq]
    omega
  rw [hmin, toInt_ofInt hle]

/-- A round makes the next entry of a row right. -/
theorem editRound_filled (hlens : s.length ≤ 127) (hlenn : n.length ≤ 127) (hj : j < n.length)
    (hi : i < s.length) (h : Filled s n j i d) :
    ∃ d', editRound s n j i d = some d' ∧ Filled s n j (i + 1) d' := by
  have hrows := h.rows
  have hcolumns := h.columns
  have hs : s[i]? = some s[i] := List.getElem?_eq_getElem hi
  have hn : n[j]? = some n[j] := List.getElem?_eq_getElem hj
  have hbefore := h.cell i j (by omega) (by omega) (by omega)
  have hup := h.cell i (j + 1) (by omega) (by omega) (by omega)
  have hleft := h.cell (i + 1) j (by omega) (by omega) (by omega)
  -- Whatever branch the code takes, it stores into this cell and no other.
  have hstore : ∀ x, Holds s n (i + 1) (j + 1) x →
      ∃ d', d.write (i + 1) (j + 1) x = some d' ∧ Filled s n j (i + 1) d' := by
    intro x hx
    obtain ⟨d', hwrite, hstored⟩ :=
      Grid.write_of_lt (x := x) (by omega : i + 1 < d.rows) (by omega : j + 1 < d.columns)
    refine ⟨d', hwrite, hstored.rows.trans hrows, hstored.columns.trans hcolumns, ?_⟩
    intro a b ha hb hdone
    by_cases hab : a = i + 1 ∧ b = j + 1
    · obtain ⟨rfl, rfl⟩ := hab
      rwa [hstored.here]
    · rw [hstored.other a b hab]
      exact h.cell a b ha hb (by omega)
  rw [editRound, hs, hn, Grid.read_of_lt (by omega) (by omega)]
  simp only [Option.bind_eq_bind, Option.bind_some]
  split
  · rename_i hcc
    exact hstore _ (holds_same hs (hcc ▸ hn) hbefore)
  · rename_i hcc
    rw [Grid.read_of_lt (by omega) (by omega), Grid.read_of_lt (by omega) (by omega)]
    exact hstore _ (holds_ne hcc hs hn hlens hlenn hup hleft hbefore)

/-- A row that is done starts the next one. -/
theorem Filled.row (h : Filled s n j s.length d) : Filled s n (j + 1) 0 d := by
  refine ⟨h.rows, h.columns, fun a b ha hb hdone => h.cell a b ha hb ?_⟩
  omega

/-! ### The run -/

/-- Texts of up to 127 letters get a table of their size. -/
theorem newTable_eq {memory : Nat → Nat → Int8} {k l : Nat} (hk : k ≤ 127) (hl : l ≤ 127) :
    newTable memory k l = some ⟨k + 1, l + 1, memory⟩ := by
  have hrows : ((k : Int) + 1).toNat = k + 1 := by omega
  have hcolumns : ((l : Int) + 1).toNat = l + 1 := by omega
  rw [newTable, int32_of_range ⟨by omega, by omega⟩, int32_of_range ⟨by omega, by omega⟩,
    Option.bind_eq_bind, Option.bind_some, Option.bind_some, if_pos ⟨by omega, by omega⟩, hrows,
    hcolumns]

/-- Behind the loops that fill the borders. -/
theorem filled_of_bordered (hlens : s.length ≤ 127) (hlenn : n.length ≤ 127)
    (h : Grid.Bordered (fun i => Int8.ofInt i) (fun j => Int8.ofInt j) s.length n.length
      (s.length + 1) (n.length + 1) d) : Filled s n 0 0 d := by
  refine ⟨h.rows, h.columns, fun a b ha hb hdone => ?_⟩
  rcases Nat.eq_zero_or_pos a with rfl | hpos
  · refine ⟨b, ?_, ?_⟩
    · rw [h.top b (by omega), toInt_ofInt (by omega)]
    · have hnil := distance_nil (n.take b)
      rwa [List.length_take, Nat.min_eq_left hb] at hnil
  · obtain rfl : b = 0 := by omega
    refine ⟨a, ?_, ?_⟩
    · rw [h.left a hpos (by omega), toInt_ofInt (by omega)]
    · have hnil := (distance_nil (s.take a)).symm
      rwa [List.length_take, Nat.min_eq_left ha] at hnil

/-- The program returns the distance of two strings of at most 127 characters. -/
theorem distanceOf_eq (memory : Nat → Nat → Int8) (hlens : s.length ≤ 127)
    (hlenn : n.length ≤ 127) :
    ∃ (d : Int8) (m : Nat), distanceOf memory s n = some d ∧ d.toInt = m ∧ Distance s n m := by
  obtain ⟨d, d', hleft, htop, hborder⟩ := Grid.forUpM_border (fun i => Int8.ofInt i)
    (fun j => Int8.ofInt j) s.length n.length memory (Nat.zero_le 1)
  have hloop : ∃ e, forUpM 0 n.length (fun j => forUpM 0 s.length (editRound s n j)) d' = some e ∧
      Filled s n n.length 0 e :=
    forUpM_nested (filled_of_bordered hlens hlenn hborder)
      (fun j i d hj hi h => editRound_filled hlens hlenn hj hi h) (fun j d h => h.row)
  obtain ⟨e, hloop, he⟩ := hloop
  have hrows : ((s.length : Int) + 1).toNat = s.length + 1 := by omega
  have hcolumns : ((n.length : Int) + 1).toNat = n.length + 1 := by omega
  obtain ⟨m, hm, hdistance⟩ :=
    he.cell s.length n.length (Nat.le_refl _) (Nat.le_refl _) (.inr (.inl (Nat.le_refl _)))
  rw [List.take_length, List.take_length] at hdistance
  refine ⟨_, m, ?_, hm, hdistance⟩
  rw [distanceOf, toInt32_of_lt (by omega), toInt32_of_lt (by omega), editDistance,
    newTable_eq hlens hlenn, hrows, hcolumns, Int.toNat_natCast, Int.toNat_natCast]
  simp only [Option.bind_eq_bind, Option.bind_some, hleft, htop, hloop]
  exact Grid.read_of_lt (by rw [he.rows]; omega) (by rw [he.columns]; omega)

end

/-! ### The theorem -/

/-- A `char` is at most 127. -/
theorem le_of_toInt {d : Int8} {m : Nat} (h : d.toInt = m) : m ≤ 127 := by
  have hlt := d.toInt_lt
  omega

/-- Texts without a common letter are at least as far apart as each of them is long. -/
theorem distance_replicate {k l m : Nat}
    (h : Distance (List.replicate k (0x61 : UInt8)) (List.replicate l 0x62) m) : k ≤ m ∧ l ≤ m := by
  have ha := Edits.count_le 0x61 h.symm.1
  have hb := Edits.count_le 0x62 h.1
  rw [List.count_replicate, List.count_replicate] at ha hb
  simp at ha hb
  exact ⟨ha, hb⟩

/-- The program is right for all texts of two lengths exactly where both are at most 127. -/
theorem right_iff (k l : Nat) : Right k l ↔ k ≤ 127 ∧ l ≤ 127 := by
  constructor
  · intro h
    -- Strings of these lengths without a common letter are as far apart as they can be.
    obtain ⟨d, m, -, hm, hdistance⟩ :=
      h (fun _ _ => 0) _ _ List.length_replicate List.length_replicate
    have hle := le_of_toInt hm
    obtain ⟨hk, hl⟩ := distance_replicate hdistance
    omega
  · rintro ⟨hk, hl⟩ memory s n rfl rfl
    exact distanceOf_eq memory hk hl

/-- `EditDistance` is right for all strings of two lengths exactly if neither length is more than
127. It is wrong for any two strings with a distance of more than 127. For strings of at most 127
characters it is a metric. -/
theorem editDistance_right_iff (k l : Nat) :
    (Right k l ↔ k ≤ 127 ∧ l ≤ 127) ∧
    (∀ s n m, Distance s n m → 127 < m →
      ∀ memory d, distanceOf memory s n = some d → d.toInt ≠ m) ∧
    ∀ (memory : Nat → Nat → Int8) (s n u : List UInt8), s.length ≤ 127 → n.length ≤ 127 →
      u.length ≤ 127 → ∃ x y z,
        distanceOf memory s n = some x ∧ distanceOf memory n s = some x ∧
        distanceOf memory n u = some y ∧ distanceOf memory s u = some z ∧
        (x = 0 ↔ s = n) ∧ z.toInt ≤ x.toInt + y.toInt := by
  refine ⟨right_iff k l, fun s n m _ hm memory d _ heq => ?_, fun memory s n u hs hn hu => ?_⟩
  · have hle := le_of_toInt heq
    omega
  · obtain ⟨x, mx, hx, hxm, hdx⟩ := distanceOf_eq memory hs hn
    obtain ⟨x', mx', hx', hxm', hdx'⟩ := distanceOf_eq memory hn hs
    obtain ⟨y, my, hy, hym, hdy⟩ := distanceOf_eq memory hn hu
    obtain ⟨z, mz, hz, hzm, hdz⟩ := distanceOf_eq memory hs hu
    have hsame : x' = x := Int8.toInt_inj.mp (by rw [hxm', hxm, hdx.symm.unique hdx'])
    have hzero : x = 0 ↔ mx = 0 := by
      rw [← Int8.toInt_inj, hxm]
      exact Int.natCast_eq_zero
    refine ⟨x, y, z, hx, hsame ▸ hx', hy, hz, ?_, ?_⟩
    · rw [hzero, ← distance_zero]
      constructor
      · rintro rfl
        exact hdx
      · exact fun h => hdx.unique h
    · have htriangle := hdx.triangle hdy hdz
      omega

/-- The distance of 128 letters from no letters is 128, and `EditDistance` returns -128. -/
theorem editDistance_wraps :
    Distance [] (List.replicate 128 (0x61 : UInt8)) 128 ∧
      distanceOf (fun _ _ => 0) [] (List.replicate 128 0x61) = some (-128) := by
  refine ⟨?_, by decide +kernel⟩
  have hnil := distance_nil (List.replicate 128 (0x61 : UInt8))
  rwa [List.length_replicate] at hnil

end LearnGit.Proofs.DynamicProgramming.EditDistance
